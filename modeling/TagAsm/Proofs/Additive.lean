import Mathlib.Data.List.Infix
import TagAsm.Lower.Expr

/-!
# Lowering an expression only adds

Whatever an expression is lowered to is put together from five operations: a new value, a new literal, a statement, an error,
and nothing at all (`Additive`). So lowering an expression touches no block, takes nothing away, and what it does depends on
the values and literals that are there, and on nothing else of the draft.
-/

namespace TagAsm.Lower

open TagAsm.Flow List
open Source (Expr ExprInfo)

/-- Put together from new values, new literals, statements and errors, none of them about a break. -/
inductive Additive : {α : Type} → LowerM α → Prop where
  | pure {α : Type} (a : α) : Additive (pure a)
  | temporary (ty : TypeId) : Additive (temporary ty)
  | literal (ty : TypeId) (val : LiteralValue) : Additive (literal ty val)
  | emit (act : Action) (loc : Location) : Additive (emit act loc)
  | error {kind : DiagnosticKind} (hkind : kind ≠ .unexpectedBreak) (loc : Location) (msg : String) : Additive (error kind loc msg)
  | bind {α β : Type} {first : LowerM α} {next : α → LowerM β} (hfirst : Additive first)
    (hnext : ∀ a, Additive (next a)) : Additive (first >>= next)

/-! ## Everything that expressions are lowered with -/

/-- To apply an operator only adds. -/
theorem additive_applyOperator (kind : Operator) (info : ExprInfo) (args : List ValueId) : Additive (applyOperator kind info args) :=
  .bind (.temporary _) fun _ => .bind (.emit _ _) fun _ => .pure _

/-- To load from an address only adds. -/
theorem additive_load (info : ExprInfo) (low : Lowered) : Additive (load info low) := by
  unfold load
  split
  · exact additive_applyOperator _ _ _
  · exact .pure _

/-- So does what an assignment takes its value from, if what it is lowered with does. -/
theorem additive_sourceOf (val : Expr) {lower : LowerM Lowered} (h : Additive lower) : Additive (sourceOf val lower) := by
  unfold sourceOf
  split
  · exact .bind (.literal _ _) fun _ => .pure _
  · exact .pure _
  · exact .bind h fun _ => .bind (additive_load _ _) fun _ => .pure _

/-- To note the name of a member only adds. -/
theorem additive_memberName (key : Expr) : Additive (memberName key) := by
  unfold memberName
  split
  · exact .bind (.literal _ _) fun _ => .pure _
  · exact .bind (.error (by decide) _ _) fun _ => .pure _

/-- To put something in the place of what cannot be lowered only adds. -/
theorem additive_placeholder (info : ExprInfo) : Additive (placeholder info) := .bind (.temporary _) fun _ => .pure _

/-- A variable only adds. -/
theorem additive_lowerVariable (scope : Scope) (info : ExprInfo) (id : Source.VariableId) : Additive (lowerVariable scope info id) := by
  unfold lowerVariable
  split
  · exact .pure _
  · exact .bind (.error (by decide) _ _) fun _ => additive_placeholder _

section

variable (info : ExprInfo)

/-- A constant only adds. -/
theorem additive_lowerConstant (src : AssignSource) : Additive (lowerConstant info src) :=
  .bind (.temporary _) fun _ => .bind (.emit _ _) fun _ => .pure _

/-- A step only adds. -/
theorem additive_lowerCount (op : Source.StepOperator) (fixity : Source.Fixity) (tgt : ValueId) :
    Additive (lowerCount info op fixity tgt) := by
  cases fixity with
  | before => exact .bind (additive_applyOperator _ _ _) fun _ => .pure _
  | after => exact .bind (additive_applyOperator _ _ _) fun _ => .bind (additive_applyOperator _ _ _) fun _ => .pure _

/-- A member only adds. -/
theorem additive_lowerMember (reference : Bool) (obj : ValueId) (name : LiteralId) : Additive (lowerMember info reference obj name) :=
  .bind (.temporary _) fun _ => .bind (.emit _ _) fun _ => .pure _

/-- A builtin only adds. -/
theorem additive_lowerBuiltin (kind : Builtin) (tmpl : Option TypeId) (ty : TypeId) (args : List ValueId) :
    Additive (lowerBuiltin info kind tmpl ty args) :=
  .bind (.temporary _) fun _ => .bind (.emit _ _) fun _ => .pure _

end

/-- What is called only adds. -/
theorem additive_calleeOperands (callee : Expr) (low : Lowered) : Additive (calleeOperands callee low) := by
  unfold calleeOperands
  split
  · exact .pure _
  · exact .bind (additive_load _ _) fun _ => .pure _

mutual

/-- An expression only adds. By induction on it. -/
theorem additive_lowerExpr (scope : Scope) : ∀ (expr : Expr) (reference : Bool), Additive (lowerExpr scope expr reference)
  | .literal info val, _ => .bind (.literal _ _) fun _ => additive_lowerConstant _ _
  | .variableRef info id, _ => additive_lowerVariable _ _ _
  | .functionRef info id, _ => additive_lowerConstant _ _
  | .unary info op opd, _ =>
    .bind (additive_lowerExpr scope opd false) fun _ => .bind (additive_load _ _) fun _ =>
      .bind (additive_applyOperator _ _ _) fun _ => .pure _
  | .binary info op lhs rhs, _ =>
    .bind (additive_lowerExpr scope lhs false) fun _ => .bind (additive_load _ _) fun _ =>
      .bind (additive_lowerExpr scope rhs false) fun _ => .bind (additive_load _ _) fun _ =>
      .bind (additive_applyOperator _ _ _) fun _ => .pure _
  | .count info op fixity tgt, _ => by
    rw [lowerExpr]
    split
    · exact .bind (additive_lowerExpr scope tgt true) fun _ => additive_lowerCount _ _ _ _
    · exact .bind (.error (by decide) _ _) fun _ => additive_placeholder _
  | .assign info tgt val, _ => by
    rw [lowerExpr]
    split
    · exact .bind (additive_lowerExpr scope tgt true) fun _ =>
        .bind (additive_sourceOf val (additive_lowerExpr scope val false)) fun _ => .bind (.emit _ _) fun _ => .pure _
    · exact .bind (.error (by decide) _ _) fun _ => additive_placeholder _
  | .call info callee args, reference => by
    have hc := additive_lowerExpr scope callee false
    have ha := additive_lowerExprs scope args
    cases callee
    case functionRef =>
      exact .bind ha fun _ => .bind (.temporary _) fun _ => .bind (.emit _ _) fun _ => .pure _
    all_goals
      rw [lowerExpr]
      · exact .bind hc fun _ => .bind (additive_calleeOperands _ _) fun _ => .bind ha fun _ =>
          .bind (additive_applyOperator _ _ _) fun _ => .pure _
      · exact fun _ _ h => nomatch h
  | .index info obj position, reference =>
    .bind (additive_lowerExpr scope obj reference) fun _ => .bind (additive_lowerExpr scope position false) fun _ =>
      .bind (additive_load _ _) fun _ => .bind (additive_applyOperator _ _ _) fun _ => .pure _
  | .member info obj key, reference => by
    refine .bind (additive_memberName key) fun name => ?_
    cases name with
    | some name => exact .bind (additive_lowerExpr scope obj reference) fun _ => additive_lowerMember _ _ _ _
    | none => exact additive_placeholder _
  | .cast _ val _, _ | .typeOf _ val, _ =>
    .bind (additive_lowerExpr scope val false) fun _ => .bind (additive_load _ _) fun _ =>
      additive_lowerBuiltin _ _ _ _ _
  | .make info tgt args, _ => .bind (additive_lowerExprs scope args) fun _ => additive_lowerBuiltin _ _ _ _ _
  | .print info args, _ =>
    .bind (additive_lowerExprs scope args) fun _ => .bind (.emit _ _) fun _ => additive_placeholder _

/-- So do expressions in a row. -/
theorem additive_lowerExprs (scope : Scope) : ∀ exprs : List Expr, Additive (lowerExprs scope exprs)
  | [] => .pure _
  | expr :: rest =>
    .bind (additive_lowerExpr scope expr false) fun _ => .bind (additive_load _ _) fun _ =>
      .bind (additive_lowerExprs scope rest) fun _ => .pure _

end

/-- So does an expression that is taken by value. -/
theorem additive_lowerValue (scope : Scope) (expr : Expr) : Additive (lowerValue scope expr) :=
  .bind (additive_lowerExpr scope expr false) fun _ => additive_load _ _

/-- So does one that is assigned. -/
theorem additive_lowerSource (scope : Scope) (expr : Expr) : Additive (lowerSource scope expr) :=
  additive_sourceOf expr (additive_lowerExpr scope expr false)

/-! ## What follows -/

/-- The second draft is the first with values, literals and statements added at the end. The blocks are the same. -/
structure Draft.Extends (draft later : Draft) : Prop where
  values : draft.values <+: later.values
  literals : draft.literals <+: later.literals
  code : draft.code <+: later.code
  blocks : later.blocks = draft.blocks

/-- A draft extends itself. -/
theorem Draft.Extends.refl (draft : Draft) : draft.Extends draft := ⟨prefix_refl _, prefix_refl _, prefix_refl _, rfl⟩

/-- What extends an extension extends the draft. -/
theorem Draft.Extends.trans {a b c : Draft} (hab : a.Extends b) (hbc : b.Extends c) : a.Extends c :=
  ⟨hab.values.trans hbc.values, hab.literals.trans hbc.literals, hab.code.trans hbc.code, hbc.blocks.trans hab.blocks⟩

/-- What only adds extends the draft. -/
theorem Additive.extends {α : Type} {act : LowerM α} (h : Additive act) (draft : Draft) : draft.Extends (act.run draft).2 := by
  induction h generalizing draft with
  | pure a => exact Draft.Extends.refl draft
  | temporary ty => exact ⟨prefix_append _ _, prefix_refl _, prefix_refl _, rfl⟩
  | literal ty val => exact ⟨prefix_refl _, prefix_append _ _, prefix_refl _, rfl⟩
  | emit act loc => exact ⟨prefix_refl _, prefix_refl _, prefix_append _ _, rfl⟩
  | error hk loc msg => exact ⟨prefix_refl _, prefix_refl _, prefix_refl _, rfl⟩
  | bind _ _ ihfirst ihnext => exact (ihfirst draft).trans (ihnext _ _)

/-- The two drafts have the same values and literals, and the same code at hand. -/
structure Draft.Alike (draft other : Draft) : Prop where
  values : draft.values = other.values
  literals : draft.literals = other.literals
  code : draft.code = other.code

/-- What only adds has the same result in drafts that are alike, and leaves them alike. -/
theorem Additive.alike {α : Type} {act : LowerM α} (h : Additive act) {draft other : Draft} (ha : draft.Alike other) :
    (act.run draft).1 = (act.run other).1 ∧ (act.run draft).2.Alike (act.run other).2 := by
  induction h generalizing draft other with
  | pure a => exact ⟨rfl, ha⟩
  | temporary ty =>
    refine ⟨congrArg Table.nextId ha.values, ?_, ha.literals, ha.code⟩
    exact congrArg (fun vals : Table Value => vals.push ⟨vals.nextId, none, ty⟩) ha.values
  | literal ty val =>
    refine ⟨congrArg Table.nextId ha.literals, ha.values, ?_, ha.code⟩
    exact congrArg (fun literals : Table Literal => literals.push ⟨literals.nextId, ty, val⟩) ha.literals
  | emit act loc =>
    refine ⟨rfl, ha.values, ha.literals, ?_⟩
    exact congrArg (fun code : List Statement => code ++ [⟨act, loc⟩]) ha.code
  | error hk loc msg => exact ⟨rfl, ha.values, ha.literals, ha.code⟩
  | @bind α β first next _ _ ihfirst ihnext =>
    obtain ⟨hr, hl⟩ := ihfirst ha
    have hrun : ∀ d, (first >>= next).run d = (next (first.run d).1).run (first.run d).2 := fun _ => rfl
    rw [hrun, hrun, ← hr]
    exact ihnext _ hl

end TagAsm.Lower
