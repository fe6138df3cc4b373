import Mathlib.Logic.Function.Basic
import TagAsm.Proofs.Additive
import TagAsm.Proofs.Bodies

/-!
# What lowered expressions compute

Expressions of constants, variables, operators, counting and assignments are given two meanings. `Expr.evaluate` evaluates
operands to values, from left to right, and then applies the operator. `Expr.settle` does the same, but an operand that is a
variable, or an assignment to one, stays that variable until the operator is applied, and is read only then. The statements
that an expression is lowered to compute the second meaning, whatever the operators mean. The two agree for expressions in
which no operand is such a variable while an operand to the right of it changes that variable (`Expr.Steady`).
-/

namespace TagAsm.Source

/-- What literals and operators mean. The order of values is read in both directions. -/
structure Algebra (V : Type) where
  constant : LiteralValue → V
  unary : UnaryOperator → V → V
  binary : BinaryOperator → V → V → V
  count : StepOperator → V → V
  greater_eq : ∀ a b, binary .greater a b = binary .less b a
  greaterEqual_eq : ∀ a b, binary .greaterEqual a b = binary .lessEqual b a

/-- What the variables hold. -/
abbrev Store (V : Type) := VariableId → V

/-- An operand that waits for its operator: a value of its own, or a variable that has not been read yet. -/
inductive Held (V : Type) where
  | own (val : V)
  | unread (id : VariableId)

/-- The value of an operand, once it is needed. -/
def Held.read {V : Type} (store : Store V) : Held V → V
  | .own value => value
  | .unread id => store id

namespace Expr

/-- An expression of literals, declared variables, operators, and variables that are counted or assigned to. -/
inductive Plain (declared : List VariableId) : Expr → Prop where
  | literal (info : ExprInfo) (val : LiteralValue) : Plain declared (.literal info val)
  | variableRef (info : ExprInfo) {id : VariableId} (hid : id ∈ declared) : Plain declared (.variableRef info id)
  | unary (info : ExprInfo) (op : UnaryOperator) {opd : Expr} (hoperand : Plain declared opd) : Plain declared (.unary info op opd)
  | binary (info : ExprInfo) (op : BinaryOperator) {lhs rhs : Expr} (hlhs : Plain declared lhs)
    (hrhs : Plain declared rhs) : Plain declared (.binary info op lhs rhs)
  | count (info place : ExprInfo) (op : StepOperator) (fixity : Fixity) {id : VariableId} (hid : id ∈ declared) :
    Plain declared (.count info op fixity (.variableRef place id))
  | assign (info place : ExprInfo) {id : VariableId} {val : Expr} (hid : id ∈ declared) (hvalue : Plain declared val) :
    Plain declared (.assign info (.variableRef place id) val)

section

variable {V : Type}

/-- Evaluates an expression by value: the left operand, then the right one, then the operator. Yields the value and what the
variables hold afterwards. Only plain expressions have a value. -/
def evaluate (A : Algebra V) : Expr → Store V → Option (V × Store V)
  | .literal _ value, store => some (A.constant value, store)
  | .variableRef _ id, store => some (store id, store)
  | .unary _ op opd, store => do
    let (a, store) ← evaluate A opd store
    return (A.unary op a, store)
  | .binary _ op lhs rhs, store => do
    let (a, store) ← evaluate A lhs store
    let (b, store) ← evaluate A rhs store
    return (A.binary op a b, store)
  | .count _ op .before (.variableRef _ id), store =>
    some (A.count op (store id), Function.update store id (A.count op (store id)))
  | .count _ op .after (.variableRef _ id), store =>
    some (store id, Function.update store id (A.count op (store id)))
  | .assign _ (.variableRef _ id) value, store => do
    let (a, store) ← evaluate A value store
    return (a, Function.update store id a)
  | _, _ => none

/-- Evaluates an expression, but reads a variable only when its operator is applied. An assignment stands for the variable that
it assigns to. -/
def settle (A : Algebra V) : Expr → Store V → Option (Held V × Store V)
  | .literal _ value, store => some (.own (A.constant value), store)
  | .variableRef _ id, store => some (.unread id, store)
  | .unary _ op opd, store => do
    let (a, store) ← settle A opd store
    return (.own (A.unary op (a.read store)), store)
  | .binary _ op lhs rhs, store => do
    let (a, store) ← settle A lhs store
    let (b, store) ← settle A rhs store
    return (.own (A.binary op (a.read store) (b.read store)), store)
  | .count _ op .before (.variableRef _ id), store =>
    some (.own (A.count op (store id)), Function.update store id (A.count op (store id)))
  | .count _ op .after (.variableRef _ id), store =>
    some (.own (store id), Function.update store id (A.count op (store id)))
  | .assign _ (.variableRef _ id) value, store => do
    let (a, store) ← settle A value store
    return (.unread id, Function.update store id (a.read store))
  | _, _ => none

end

/-- The variable that an operand stands for until it is read. -/
def held? : Expr → Option VariableId
  | .variableRef _ id | .assign _ (.variableRef _ id) _ => some id
  | _ => none

/-- The variables that an expression counts or assigns to. -/
def changes : Expr → List VariableId
  | .unary _ _ opd => opd.changes
  | .binary _ _ lhs rhs => lhs.changes ++ rhs.changes
  | .count _ _ _ (.variableRef _ id) => [id]
  | .assign _ (.variableRef _ id) value => id :: value.changes
  | _ => []

/-- No left operand stands for a variable that the right operand changes. -/
def Steady : Expr → Prop
  | .unary _ _ opd => opd.Steady
  | .binary _ _ lhs rhs => lhs.Steady ∧ rhs.Steady ∧ ∀ id ∈ lhs.held?, id ∉ rhs.changes
  | .assign _ _ value => value.Steady
  | _ => True

/-! ## Reading late -/

section

variable {V : Type} {A : Algebra V} {declared : List VariableId} {expr : Expr} {store store' : Store V} {held : Held V}
  {info : ExprInfo}

theorem settle_unary {op : UnaryOperator} {opd : Expr} (h : (unary info op opd).settle A store = some (held, store')) :
    ∃ a, opd.settle A store = some (a, store') ∧ held = .own (A.unary op (a.read store')) := by
  simp only [settle, Option.bind_eq_bind, Option.bind_eq_some_iff, Option.pure_def, Option.some.injEq, Prod.mk.injEq] at h
  obtain ⟨⟨a, _⟩, ha, rfl, rfl⟩ := h
  exact ⟨a, ha, rfl⟩

theorem settle_binary {op : BinaryOperator} {lhs rhs : Expr} (h : (binary info op lhs rhs).settle A store = some (held, store')) :
    ∃ a b mid, lhs.settle A store = some (a, mid) ∧ rhs.settle A mid = some (b, store') ∧
      held = .own (A.binary op (a.read store') (b.read store')) := by
  simp only [settle, Option.bind_eq_bind, Option.bind_eq_some_iff, Option.pure_def, Option.some.injEq, Prod.mk.injEq] at h
  obtain ⟨⟨a, mid⟩, ha, ⟨b, _⟩, hb, rfl, rfl⟩ := h
  exact ⟨a, b, mid, ha, hb, rfl⟩

variable {id : VariableId}

theorem settle_assign {place : ExprInfo} {val : Expr}
    (h : (assign info (.variableRef place id) val).settle A store = some (held, store')) :
    ∃ a mid, val.settle A store = some (a, mid) ∧ held = .unread id ∧ store' = Function.update mid id (a.read mid) := by
  simp only [settle, Option.bind_eq_bind, Option.bind_eq_some_iff, Option.pure_def, Option.some.injEq, Prod.mk.injEq] at h
  obtain ⟨⟨a, mid⟩, ha, rfl, rfl⟩ := h
  exact ⟨a, mid, ha, rfl, rfl⟩

variable (hplain : expr.Plain declared)
include hplain

/-- Only the variables that an expression changes have other contents afterwards. -/
theorem store_eq_of_settle (h : expr.settle A store = some (held, store')) (hid : id ∉ expr.changes) : store' id = store id := by
  induction hplain generalizing store store' held with
  | literal | variableRef =>
    obtain ⟨-, rfl⟩ := Prod.mk.inj (Option.some.inj h)
    rfl
  | unary info op ho ih =>
    obtain ⟨a, ha, -⟩ := settle_unary h
    exact ih ha hid
  | binary info op hlhs hrhs ihl ihr =>
    obtain ⟨a, b, mid, ha, hb, -⟩ := settle_binary h
    simp only [changes, List.mem_append, not_or] at hid
    exact (ihr hb hid.2).trans (ihl ha hid.1)
  | count info place op fixity hd =>
    simp only [changes, List.mem_singleton] at hid
    cases fixity <;>
    · obtain ⟨-, rfl⟩ := Prod.mk.inj (Option.some.inj h)
      exact Function.update_of_ne hid _ _
  | assign info place hd hv ih =>
    obtain ⟨a, mid, ha, -, rfl⟩ := settle_assign h
    simp only [changes, List.mem_cons, not_or] at hid
    rw [Function.update_of_ne hid.1, ih ha hid.2]

/-- An operand that has not been read is one that stands for a variable. -/
theorem held?_of_settle (h : expr.settle A store = some (.unread id, store')) : expr.held? = some id := by
  cases hplain with
  | literal => cases h
  | variableRef info hid =>
    obtain ⟨hid, -⟩ := Prod.mk.inj (Option.some.inj h)
    rw [held?, Held.unread.inj hid]
  | unary =>
    obtain ⟨a, -, hh⟩ := settle_unary h
    cases hh
  | binary =>
    obtain ⟨a, b, mid, -, -, hh⟩ := settle_binary h
    cases hh
  | count info place op fixity hid => cases fixity <;> cases h
  | assign =>
    obtain ⟨a, mid, -, hh, -⟩ := settle_assign h
    rw [held?, Held.unread.inj hh]

/-- Where no operand is changed while it waits, reading late makes no difference. -/
theorem evaluate_of_settle (hs : expr.Steady) (h : expr.settle A store = some (held, store')) :
    expr.evaluate A store = some (held.read store', store') := by
  induction hplain generalizing store store' held with
  | literal | variableRef =>
    obtain ⟨rfl, rfl⟩ := Prod.mk.inj (Option.some.inj h)
    rfl
  | unary info op ho ih =>
    obtain ⟨a, ha, rfl⟩ := settle_unary h
    simp only [evaluate, ih hs ha]
    rfl
  | binary info op hlhs hrhs ihl ihr =>
    obtain ⟨a, b, mid, ha, hb, rfl⟩ := settle_binary h
    -- The left operand is read after the right one was evaluated, but what it stands for is still the same.
    have hr : a.read store' = a.read mid := by
      cases a with
      | own val => rfl
      | unread id => exact store_eq_of_settle hrhs hb (hs.2.2 id (held?_of_settle hlhs ha))
    simp only [evaluate, Option.bind_eq_bind, ihl hs.1 ha, Option.bind_some, ihr hs.2.1 hb, ← hr]
    rfl
  | count info place op fixity hd =>
    cases fixity <;>
    · obtain ⟨rfl, rfl⟩ := Prod.mk.inj (Option.some.inj h)
      rfl
  | assign info place hd hv ih =>
    obtain ⟨a, mid, ha, rfl, rfl⟩ := settle_assign h
    simp only [evaluate, ih hs ha, Held.read, Function.update_self]
    rfl

end

end Expr

end TagAsm.Source

namespace TagAsm.Lower

open TagAsm.Flow List
open Source (Expr ExprInfo Algebra Store Held VariableId)
open Function (update update_of_ne update_self)

/-! ## Executing statements -/

/-- What the values of a body hold. -/
abbrev Slots (V : Type) := ValueId → V

section

variable {V : Type}

/-- The operator statements that compute a new value from their arguments. -/
def applied (A : Algebra V) : Operator → List V → Option V
  | .pos, [a] => some (A.unary .plus a)
  | .neg, [a] => some (A.unary .negate a)
  | .not, [a] => some (A.unary .not a)
  | .bitNot, [a] => some (A.unary .bitNot a)
  | .deref, [a] => some a
  | .or, [a, b] => some (A.binary .logicalOr a b)
  | .and, [a, b] => some (A.binary .logicalAnd a b)
  | .bitOr, [a, b] => some (A.binary .bitOr a b)
  | .bitXor, [a, b] => some (A.binary .bitXor a b)
  | .bitAnd, [a, b] => some (A.binary .bitAnd a b)
  | .equal, [a, b] => some (A.binary .equal a b)
  | .notEqual, [a, b] => some (A.binary .notEqual a b)
  | .less, [a, b] => some (A.binary .less a b)
  | .lessEqual, [a, b] => some (A.binary .lessEqual a b)
  | .shiftLeft, [a, b] => some (A.binary .shiftLeft a b)
  | .shiftRight, [a, b] => some (A.binary .shiftRight a b)
  | .add, [a, b] => some (A.binary .add a b)
  | .subtract, [a, b] => some (A.binary .subtract a b)
  | .multiply, [a, b] => some (A.binary .multiply a b)
  | .divide, [a, b] => some (A.binary .divide a b)
  | .remainder, [a, b] => some (A.binary .remainder a b)
  | _, _ => none

/-- Counts a place up or down. The place gets the new value, and so does the result. -/
def counted (A : Algebra V) (op : Source.StepOperator) (slots : Slots V) (res place : ValueId) : Slots V :=
  update (update slots place (A.count op (slots place))) res (A.count op (slots place))

/-- What an assignment takes. -/
def sourceValue (A : Algebra V) (pool : Table Literal) (slots : Slots V) : AssignSource → Option V
  | .value id => some (slots id)
  | .literal id => pool[id]?.map fun literal => A.constant literal.value
  | .subroutine _ => none

/-- Executes a statement that works on values alone. -/
def executeAction (A : Algebra V) (pool : Table Literal) (slots : Slots V) : Action → Option (Slots V)
  | .operator .increment res [place] => some (counted A .increment slots res place)
  | .operator .decrement res [place] => some (counted A .decrement slots res place)
  | .operator kind res arguments => (applied A kind (arguments.map slots)).map (update slots res)
  | .assign dst source => (sourceValue A pool slots source).map (update slots dst)
  | _ => none

/-- Executes statements one after the other. -/
def executeCode (A : Algebra V) (pool : Table Literal) (code : List Statement) (slots : Slots V) : Option (Slots V) :=
  code.foldlM (fun slots statement => executeAction A pool slots statement.action) slots

variable (A : Algebra V) (pool : Table Literal)

theorem executeCode_append (first rest : List Statement) (slots : Slots V) :
    executeCode A pool (first ++ rest) slots = (executeCode A pool first slots).bind (executeCode A pool rest) :=
  foldlM_append

/-- The statement of a unary operator applies it. -/
theorem applied_unaryOperator (op : Source.UnaryOperator) (a : V) : applied A (unaryOperator op) [a] = some (A.unary op a) := by
  cases op <;> rfl

/-- The statement of a binary operator applies it, to operands that may have changed places. -/
theorem applied_binaryOperator (op : Source.BinaryOperator) (a b : V) :
    applied A (binaryOperator op).1 (if (binaryOperator op).2 then [b, a] else [a, b]) = some (A.binary op a b) := by
  cases op with
  | greater => exact congrArg some (A.greater_eq a b).symm
  | greaterEqual => exact congrArg some (A.greaterEqual_eq a b).symm
  | _ => rfl

section

variable {A pool} {slots : Slots V} {res : ValueId} {val : V}

/-- An operator that is applied, and does not count, puts its value into the result. -/
theorem executeAction_applied {kind : Operator} {args : List ValueId} (h : applied A kind (args.map slots) = some val) :
    executeAction A pool slots (.operator kind res args) = some (update slots res val) := by
  unfold executeAction
  split <;> simp_all [applied]

theorem executeAction_assign {src : AssignSource} (h : sourceValue A pool slots src = some val) :
    executeAction A pool slots (.assign res src) = some (update slots res val) := by
  rw [executeAction, h, Option.map_some]

end

theorem executeAction_count (slots : Slots V) (op : Source.StepOperator) (res place : ValueId) :
    executeAction A pool slots (.operator (stepOperator op) res [place]) = some (counted A op slots res place) := by
  cases op <;> rfl

end

/-! ## Code that was added, and what it does -/

section

variable {V : Type} {A : Algebra V}

/-- Between two drafts code was added, and with the literals of the later draft or more it turns `slots` into `slots'`. -/
structure Runs (A : Algebra V) (draft later : Draft) (slots slots' : Slots V) : Prop extends draft.Extends later where
  runs : ∃ code, later.code = draft.code ++ code ∧ ∀ pool, later.literals <+: pool → executeCode A pool code slots = some slots'

theorem Runs.refl (draft : Draft) (slots : Slots V) : Runs A draft draft slots slots :=
  ⟨.refl draft, [], (append_nil _).symm, fun _ _ => rfl⟩

theorem Runs.trans {a b c : Draft} {first mid last : Slots V} (hab : Runs A a b first mid)
    (hbc : Runs A b c mid last) : Runs A a c first last := by
  obtain ⟨code, hc, hrn⟩ := hab.runs
  obtain ⟨rest, hr, hg⟩ := hbc.runs
  refine ⟨hab.toExtends.trans hbc.toExtends, code ++ rest, by rw [hr, hc, append_assoc], fun pool hp => ?_⟩
  rw [executeCode_append, hrn pool (hbc.literals.trans hp)]
  exact hg pool hp

/-- Lowering something adds code that does what `post` says of the result, the draft and the slots afterwards. -/
def Performs (A : Algebra V) (slots : Slots V) (draft : Draft) {α : Type} (act : LowerM α)
    (post : α → Draft → Slots V → Prop) : Prop :=
  ∃ res later slots', act.run draft = (res, later) ∧ Runs A draft later slots slots' ∧ post res later slots'

namespace Performs

variable {α β : Type} {slots : Slots V} {draft : Draft}

theorem pure {res : α} {post : α → Draft → Slots V → Prop} (hp : post res draft slots) : Performs A slots draft (Pure.pure res) post :=
  ⟨res, draft, slots, rfl, .refl draft slots, hp⟩

variable {first : LowerM α} {rest : α → LowerM β} {post : β → Draft → Slots V → Prop} {slots' : Slots V}

theorem next {res : α} {later : Draft} (hrun : first.run draft = (res, later)) (hr : Runs A draft later slots slots')
    (hrs : Performs A slots' later (rest res) post) : Performs A slots draft (first >>= rest) post := by
  obtain ⟨last, final, slots'', hrun', hr', hp⟩ := hrs
  refine ⟨last, final, slots'', ?_, hr.trans hr', hp⟩
  show (rest (first.run draft).1).run (first.run draft).2 = _
  rw [hrun, hrun']

theorem bind {mid : α → Draft → Slots V → Prop} (hf : Performs A slots draft first mid)
    (hrs : ∀ res later slots', draft.Extends later → mid res later slots' →
      Performs A slots' later (rest res) post) : Performs A slots draft (first >>= rest) post := by
  obtain ⟨res, later, slots', hrun, hr, hm⟩ := hf
  exact .next hrun hr (hrs res later slots' hr.toExtends hm)

/-- A new value is the next one, and nothing is executed. -/
theorem temporary (ty : TypeId) : Performs A slots draft (temporary ty) fun res later slots' =>
      res = draft.values.length ∧ later.values.length = draft.values.length + 1 ∧ slots' = slots :=
  ⟨draft.values.length, draft.addTemporary ty, slots, rfl,
    ⟨(Additive.temporary ty).extends draft, [], (append_nil _).symm, fun _ _ => rfl⟩, rfl, Table.length_push _ _, rfl⟩

/-- A new literal can be taken from the pool, now and later. -/
theorem literal (ty : TypeId) (val : LiteralValue) : Performs A slots draft (literal ty val) fun id later slots' =>
      slots' = slots ∧ later.values = draft.values ∧
        ∀ pool, later.literals <+: pool → sourceValue A pool slots (.literal id) = some (A.constant val) := by
  refine ⟨draft.literals.nextId, draft.addLiteral ty val, slots, rfl,
    ⟨(Additive.literal ty val).extends draft, [], (append_nil _).symm, fun _ _ => rfl⟩, rfl, rfl, ?_⟩
  rintro pool ⟨rest, rfl⟩
  have hlt : draft.literals.nextId < (draft.literals.push ⟨draft.literals.nextId, ty, val⟩).length := by
    simp [Table.nextId]
  simp only [sourceValue, Draft.addLiteral, getElem?_append_left hlt, Table.getElem?_push_nextId, Option.map_some]

/-- A statement is executed where it stands. -/
theorem emit {act : Action} (loc : Location) (h : ∀ pool, draft.literals <+: pool → executeAction A pool slots act = some slots') :
    Performs A slots draft (emit act loc) fun _ later last => later.values = draft.values ∧ last = slots' := by
  refine ⟨(), draft.addStatement ⟨act, loc⟩, slots', rfl, ⟨(Additive.emit act loc).extends draft,
    [⟨act, loc⟩], rfl, fun pool hp => ?_⟩, rfl, rfl⟩
  show (executeAction A pool slots act).bind some = some slots'
  rw [h pool hp, Option.bind_some]

end Performs

/-- Applying an operator puts the outcome into the next value. -/
theorem applyOperator_performs {slots slots' : Slots V} {draft : Draft} {kind : Operator} (info : ExprInfo)
    {args : List ValueId}
    (h : ∀ pool, executeAction A pool slots (.operator kind draft.values.length args) = some slots') :
    Performs A slots draft (applyOperator kind info args) fun res later last =>
      res = draft.values.length ∧ later.values.length = draft.values.length + 1 ∧ last = slots' := by
  refine .bind (.temporary info.ty) ?_
  rintro _ later _ - ⟨rfl, hl, rfl⟩
  refine .bind (.emit info.location fun pool _ => h pool) ?_
  rintro _ last _ - ⟨hv, rfl⟩
  exact .pure ⟨rfl, by rw [hv, hl], rfl⟩

end

/-! ## Variables and values -/

/-- The value that a variable has in a scope belongs to no other variable, and is one of the first values. -/
structure Scope.Distinct (scope : Scope) (declared : Nat) : Prop extends scope.Declares declared where
  injective : ∀ id id' value, scope.bindings.lookup id = some value → scope.bindings.lookup id' = some value → id = id'

section

variable {V : Type} {A : Algebra V} {scope : Scope} {count : Nat}

/-- The slots of the variables hold what the store says. -/
def Scope.Holds (scope : Scope) (slots : Slots V) (store : Store V) : Prop :=
  ∀ id value, scope.bindings.lookup id = some value → slots value = store id

variable {slots : Slots V} {store : Store V} {id : VariableId} {place : ValueId}

/-- Writing to the slot of a variable writes to the variable. -/
theorem Scope.Holds.write (h : scope.Holds slots store) (hscope : scope.Distinct count)
    (hp : scope.bindings.lookup id = some place) (val : V) :
    scope.Holds (update slots place val) (update store id val) := by
  intro other slot hs
  by_cases ho : other = id
  · subst ho
    cases hp.symm.trans hs
    rw [update_self, update_self]
  · have hne : slot ≠ place := fun heq => ho (hscope.injective other id slot hs (heq ▸ hp))
    rw [update_of_ne hne, update_of_ne ho]
    exact h other slot hs

/-- Writing to a value behind the declared ones leaves the variables as they are. -/
theorem Scope.Holds.write_new (h : scope.Holds slots store) (hscope : scope.Distinct count) (hp : count ≤ place) (val : V) :
    scope.Holds (update slots place val) store := by
  intro id slot hs
  have hlt : slot < count := hscope.bindings_lt id slot hs
  rw [update_of_ne (Nat.ne_of_lt (Nat.lt_of_lt_of_le hlt hp))]
  exact h id slot hs

/-- What an operand is held in: a variable in its slot, and a value of its own in a value behind the declared ones. -/
def LiesAt (scope : Scope) (count : Nat) (slots : Slots V) (draft : Draft) (val : ValueId) : Held V → Prop
  | .own a => slots val = a ∧ count ≤ val ∧ val < draft.values.length
  | .unread id => scope.bindings.lookup id = some val

variable {draft : Draft} {val : ValueId} {held : Held V}

/-- An operand is read from the slot it is held in. -/
theorem LiesAt.read (h : LiesAt scope count slots draft val held) (hh : scope.Holds slots store) : slots val = held.read store := by
  cases held with
  | own a => exact h.1
  | unread id => exact hh id val h

/-- What running the code of an expression leaves: the variables hold what they should, values that were there and are not
declared hold what they held, and the operand stands where the expression says. -/
structure Settled (scope : Scope) (count : Nat) (draft : Draft) (slots : Slots V) (held : Held V) (store : Store V)
    (low : Lowered) (later : Draft) (slots' : Slots V) : Prop where
  plain : low.isReference = false
  holds : scope.Holds slots' store
  keeps : ∀ val, count ≤ val → val < draft.values.length → slots' val = slots val
  liesAt : LiesAt scope count slots' later low.value held

variable {later : Draft} {low : Lowered}

/-- An operand still stands after the code of another one was run. -/
theorem Settled.liesAt_before {slots' : Slots V} {other : Held V}
    (h : Settled scope count draft slots held store low later slots') (he : draft.Extends later)
    (ho : LiesAt scope count slots draft val other) : LiesAt scope count slots' later val other := by
  cases other with
  | own a =>
    obtain ⟨rfl, hc, hlt⟩ := ho
    exact ⟨h.keeps val hc hlt, hc, Nat.lt_of_lt_of_le hlt he.values.length_le⟩
  | unread id => exact ho

/-- A result that was put into the next value is an operand of its own. -/
theorem settled_result {last : Draft} {mid : Slots V} {a : V} (hscope : scope.Distinct count)
    (hc : count ≤ draft.values.length) (he : draft.Extends later) (hh : scope.Holds mid store)
    (hk : ∀ val, count ≤ val → val < draft.values.length → mid val = slots val)
    (hls : last.values.length = later.values.length + 1) :
    Settled scope count draft slots (.own a) store (.ofValue later.values.length) last (update mid later.values.length a) := by
  have hl : draft.values.length ≤ later.values.length := he.values.length_le
  refine ⟨rfl, hh.write_new hscope (Nat.le_trans hc hl) a, fun val hv hlt => ?_, ?_⟩
  · rw [update_of_ne (Nat.ne_of_lt (Nat.lt_of_lt_of_le hlt hl))]
    exact hk val hv hlt
  · exact ⟨update_self _ _ _, Nat.le_trans hc hl, by rw [hls]; exact Nat.lt_succ_self _⟩

section

variable (info : ExprInfo)

/-- A value that is no reference needs no copy. -/
theorem load_of_plain (h : low.isReference = false) : load info low = pure low.value := by
  simp [load, h]

/-- Lowering a declared variable yields its slot, and adds nothing. -/
theorem lowerVariable_of_lookup (hp : scope.bindings.lookup id = some place) (reference : Bool) :
    lowerExpr scope (.variableRef info id) reference = pure (.ofValue place) := by
  simp [lowerExpr, lowerVariable, hp]

theorem lowerExpr_count (place : ExprInfo) (op : Source.StepOperator) (fixity : Source.Fixity) {slot : ValueId}
    (hs : scope.bindings.lookup id = some slot) :
    lowerExpr scope (.count info op fixity (.variableRef place id)) false = lowerCount info op fixity slot := by
  simp [lowerExpr, Expr.isPlace, lowerVariable, hs, Lowered.ofValue]

theorem lowerExpr_assign (place : ExprInfo) (val : Expr) {slot : ValueId} (hs : scope.bindings.lookup id = some slot) :
    lowerExpr scope (.assign info (.variableRef place id) val) false = (do
        let src ← sourceOf val (lowerExpr scope val false)
        emit (.assign slot src) info.location
        return .ofValue slot) := by
  simp [lowerExpr, Expr.isPlace, lowerVariable, hs, Lowered.ofValue]

end

section

variable (hscope : scope.Distinct count) {declared : List VariableId}
  (hd : ∀ id ∈ declared, ∃ place, scope.bindings.lookup id = some place)

include hscope

variable {draft : Draft} {slots : Slots V} {store : Store V}

/-- Counting a variable up or down changes the variable, and yields its new or its old value. -/
theorem lowerCount_settles (hc : count ≤ draft.values.length) (hh : scope.Holds slots store) (info : ExprInfo)
    (op : Source.StepOperator) (fixity : Source.Fixity) (place : ExprInfo) {id : VariableId} {slot : ValueId}
    (hs : scope.bindings.lookup id = some slot) :
    ∃ held store', (Expr.count info op fixity (.variableRef place id)).settle A store = some (held, store') ∧
      Performs A slots draft (lowerCount info op fixity slot) (Settled scope count draft slots held store') := by
  have hr : slots slot = store id := hh id slot hs
  have hne : ∀ val : Nat, count ≤ val → val ≠ slot := fun val hv =>
    Nat.ne_of_gt (Nat.lt_of_lt_of_le (hscope.bindings_lt id slot hs) hv)
  cases fixity with
  | before =>
    refine ⟨_, _, rfl, ?_⟩
    refine .bind (applyOperator_performs info fun pool => executeAction_count A pool slots op _ slot) ?_
    rintro _ later _ - ⟨rfl, hl, rfl⟩
    refine .pure ?_
    rw [counted, hr]
    exact settled_result hscope hc (.refl draft) (hh.write hscope hs _) (fun val hv _ => update_of_ne (hne val hv) _ _) hl
  | after =>
    refine ⟨_, _, rfl, ?_⟩
    have hcy : ∀ pool, executeAction A pool slots (.operator .deref draft.values.length [slot]) =
        some (update slots draft.values.length (slots slot)) :=
      fun pool => executeAction_applied rfl
    refine .bind (applyOperator_performs info hcy) ?_
    rintro _ later _ - ⟨rfl, hl, rfl⟩
    refine .bind (applyOperator_performs info fun pool => executeAction_count A pool _ op _ slot) ?_
    rintro _ last _ - ⟨-, hls, rfl⟩
    refine .pure ?_
    have hcp : update slots draft.values.length (slots slot) slot = store id := by
      rw [update_of_ne (hne _ hc).symm, hr]
    rw [counted, hcp, hl]
    refine ⟨rfl, ?_, fun val hv hb => ?_, ?_, hc, ?_⟩
    · exact ((hh.write_new hscope hc _).write hscope hs _).write_new hscope (Nat.le_succ_of_le hc) _
    · rw [update_of_ne (Nat.ne_of_lt (Nat.lt_succ_of_lt hb)), update_of_ne (hne val hv), update_of_ne (Nat.ne_of_lt hb)]
    · rw [Lowered.ofValue, update_of_ne (Nat.ne_of_lt (Nat.lt_succ_self _)), update_of_ne (hne _ hc), update_self, hr]
    · rw [hls, hl]
      exact Nat.lt_succ_of_lt (Nat.lt_succ_self _)

omit hscope in
/-- What an assignment takes is the value of the expression on its right hand side. -/
theorem sourceOf_settles {store' : Store V} (hh : scope.Holds slots store) {val : Expr}
    (hf : ∀ info id, val ≠ .functionRef info id) {held : Held V} (hst : val.settle A store = some (held, store'))
    (hv : Performs A slots draft (lowerExpr scope val false) (Settled scope count draft slots held store')) :
    Performs A slots draft (sourceOf val (lowerExpr scope val false)) fun src later slots' =>
      scope.Holds slots' store' ∧ (∀ val, count ≤ val → val < draft.values.length → slots' val = slots val) ∧
        ∀ pool, later.literals <+: pool → sourceValue A pool slots' src = some (held.read store') := by
  unfold sourceOf
  split
  · rename_i info constant
    obtain ⟨rfl, rfl⟩ := Prod.mk.inj (Option.some.inj hst)
    refine .bind (.literal info.ty constant) ?_
    rintro id later _ - ⟨rfl, -, hl⟩
    exact .pure ⟨hh, fun _ _ _ => rfl, hl⟩
  · exact absurd rfl (hf _ _)
  · refine .bind hv fun low later slots' he hs => ?_
    rw [load_of_plain _ hs.plain, pure_bind]
    exact .pure ⟨hs.holds, hs.keeps, fun _ _ => congrArg some (hs.liesAt.read hs.holds)⟩

include hd

/-- Lowering a plain expression adds code that settles it. By induction on the expression: the code of an operand writes to
variables and to new values only, so an operand that was settled before still stands where it was put. -/
theorem lowerExpr_settles {expr : Expr} (hplain : expr.Plain declared) (hc : count ≤ draft.values.length) (hh : scope.Holds slots store) :
    ∃ held store', expr.settle A store = some (held, store') ∧
      Performs A slots draft (lowerExpr scope expr false) (Settled scope count draft slots held store') := by
  induction hplain generalizing draft slots store with
  | literal info val =>
    refine ⟨_, _, rfl, ?_⟩
    refine .bind (.literal info.ty val) ?_
    rintro id pooled _ hpd ⟨rfl, hvs, hlr⟩
    refine .bind (.temporary info.ty) ?_
    rintro _ later slots hl ⟨rfl, hln, rfl⟩
    refine .bind (.emit info.location fun pool hpl => executeAction_assign (hlr pool (hl.literals.trans hpl))) ?_
    rintro _ last _ - ⟨hls, rfl⟩
    exact .pure (settled_result hscope hc hpd hh (fun _ _ _ => rfl) (by rw [hls, hln]))
  | variableRef info hid =>
    obtain ⟨place, hpc⟩ := hd _ hid
    refine ⟨_, _, rfl, ?_⟩
    rw [lowerVariable_of_lookup info hpc]
    exact .pure ⟨rfl, hh, fun _ _ _ => rfl, hpc⟩
  | @unary info op opd ho ih =>
    obtain ⟨a, store', ha, hp⟩ := ih hc hh
    refine ⟨.own (A.unary op (a.read store')), store', by simp [Expr.settle, ha], ?_⟩
    refine .bind hp fun low later slots' he hst => ?_
    rw [load_of_plain _ hst.plain, pure_bind]
    have hap : ∀ pool, executeAction A pool slots' (.operator (unaryOperator op) later.values.length [low.value]) =
        some (update slots' later.values.length (A.unary op (a.read store'))) := by
      intro pool
      refine executeAction_applied ?_
      rw [map_singleton, hst.liesAt.read hst.holds, applied_unaryOperator]
    refine .bind (applyOperator_performs info hap) ?_
    rintro _ last _ - ⟨rfl, hls, rfl⟩
    exact .pure (settled_result hscope hc he hst.holds hst.keeps hls)
  | @binary info op lhs rhs hlhs hrhs ihl ihr =>
    obtain ⟨a, mid, ha, low, later, slots', hrun, hrn, hlf⟩ := ihl hc hh
    have hl : draft.values.length ≤ later.values.length := hrn.values.length_le
    obtain ⟨b, store', hb, hp⟩ := ihr (Nat.le_trans hc hl) hlf.holds
    refine ⟨.own (A.binary op (a.read store') (b.read store')), store', by simp [Expr.settle, ha, hb], ?_⟩
    refine .next hrun hrn ?_
    rw [load_of_plain _ hlf.plain, pure_bind]
    refine .bind hp fun other last slots'' he hr => ?_
    rw [load_of_plain _ hr.plain, pure_bind]
    have hrd : slots'' low.value = a.read store' := (hr.liesAt_before he hlf.liesAt).read hr.holds
    have hre : slots'' other.value = b.read store' := hr.liesAt.read hr.holds
    have hap : ∀ pool, executeAction A pool slots'' (.operator (binaryOperator op).1 last.values.length
        (if (binaryOperator op).2 then [other.value, low.value] else [low.value, other.value])) =
          some (update slots'' last.values.length (A.binary op (a.read store') (b.read store'))) := by
      intro pool
      refine executeAction_applied ?_
      rw [apply_ite (map slots''), ← applied_binaryOperator]
      simp only [map_cons, map_nil, hrd, hre]
    refine .bind (applyOperator_performs info hap) ?_
    rintro _ final _ - ⟨rfl, hf, rfl⟩
    refine .pure (settled_result hscope hc (hrn.toExtends.trans he) hr.holds (fun val hle hlt => ?_) hf)
    exact (hr.keeps val hle (Nat.lt_of_lt_of_le hlt hl)).trans (hlf.keeps val hle hlt)
  | @count info place op fixity id hid =>
    obtain ⟨slot, hs⟩ := hd id hid
    obtain ⟨held, store', hsl, hp⟩ := lowerCount_settles hscope hc hh info op fixity place hs
    refine ⟨held, store', hsl, ?_⟩
    rw [lowerExpr_count info place op fixity hs]
    exact hp
  | @assign info place id val hid hv ih =>
    obtain ⟨slot, hs⟩ := hd id hid
    obtain ⟨a, store', ha, hp⟩ := ih hc hh
    refine ⟨.unread id, update store' id (a.read store'), by simp [Expr.settle, ha], ?_⟩
    rw [lowerExpr_assign info place val hs]
    have hfn : ∀ info id, val ≠ .functionRef info id := by
      rintro info id rfl
      cases hv
    refine .bind (sourceOf_settles hh hfn ha hp) ?_
    rintro src later slots' he ⟨hh', hk, hsr⟩
    refine .bind (.emit info.location fun pool hpl => executeAction_assign (hsr pool hpl)) ?_
    rintro _ last _ - ⟨-, rfl⟩
    refine .pure ⟨rfl, hh'.write hscope hs _, fun val hle hlt => ?_, hs⟩
    have hne : val ≠ slot := Nat.ne_of_gt (Nat.lt_of_lt_of_le (hscope.bindings_lt id slot hs) hle)
    rw [update_of_ne hne, hk val hle hlt]

end

end

/-! ## Expressions of a function -/

theorem mem_bindings_scopeOf {name : String} {declared : List Source.Variable} {id : VariableId} {val : ValueId} :
    (id, val) ∈ (scopeOf name declared).bindings ↔ ∃ decl, declared[val - 1]? = some decl ∧ 0 < val ∧ decl.id = id := by
  simp only [scopeOf, mem_reverse, mem_map, Prod.mk.injEq, Prod.exists, mem_zipIdx_iff_le_and_getElem?_sub]
  constructor
  · rintro ⟨decl, _, ⟨hle, hdc⟩, hid, rfl⟩
    exact ⟨decl, hdc, hle, hid⟩
  · rintro ⟨decl, hdc, hpos, hid⟩
    exact ⟨decl, val, ⟨hpos, hdc⟩, hid, rfl⟩

section

variable (name : String) (declared : List Source.Variable)

/-- The variables of a function are the values behind the return value, each its own. -/
theorem distinct_scopeOf : (scopeOf name declared).Distinct (1 + declared.length) := by
  refine ⟨declares_scopeOf name declared, fun id id' val hid hid' => ?_⟩
  have hmem : ∀ {key}, (scopeOf name declared).bindings.lookup key = some val → (key, val) ∈ (scopeOf name declared).bindings := by
    intro key hkey
    obtain ⟨before, rest, hb, -⟩ := lookup_eq_some_iff.mp hkey
    simp [hb]
  obtain ⟨decl, hdc, -, rfl⟩ := mem_bindings_scopeOf.mp (hmem hid)
  obtain ⟨decl', hdc', -, rfl⟩ := mem_bindings_scopeOf.mp (hmem hid')
  rw [Option.some.inj (hdc.symm.trans hdc')]

/-- A declared variable has a value. -/
theorem exists_lookup_scopeOf (id : VariableId) (hid : id ∈ declared.map (·.id)) :
    ∃ place, (scopeOf name declared).bindings.lookup id = some place := by
  obtain ⟨decl, hdc, rfl⟩ := mem_map.mp hid
  obtain ⟨index, hi⟩ := mem_iff_getElem?.mp hdc
  have hmem : (decl.id, index + 1) ∈ (scopeOf name declared).bindings := mem_bindings_scopeOf.mpr ⟨decl, hi, Nat.succ_pos index, rfl⟩
  cases hl : (scopeOf name declared).bindings.lookup decl.id with
  | some place => exact ⟨place, rfl⟩
  | none =>
    have hne := lookup_eq_none_iff.mp hl _ hmem
    simp at hne

end

/-- The statements that a plain expression is lowered to evaluate it from left to right, but read a variable only when its
operator is applied. They leave its value in the value that lowering yields, and in the variables what evaluation leaves there.
That is evaluation by value if no left operand stands for a variable that the right operand changes. -/
theorem lowerValue_evaluates {V : Type} (A : Algebra V) (name : String) (declared : List Source.Variable) {expr : Expr}
    (hplain : expr.Plain (declared.map (·.id))) {draft : Draft} (hdraft : declared.length < draft.values.length)
    {slots : Slots V} {store : Store V} (hholds : (scopeOf name declared).Holds slots store) :
    ∃ value later code slots' held store',
      (lowerValue (scopeOf name declared) expr).run draft = (value, later) ∧ later.code = draft.code ++ code ∧
        executeCode A later.literals code slots = some slots' ∧ (scopeOf name declared).Holds slots' store' ∧
        expr.settle A store = some (held, store') ∧ slots' value = held.read store' ∧
        (expr.Steady → expr.evaluate A store = some (slots' value, store')) := by
  have hscope := distinct_scopeOf name declared
  have hcount : 1 + declared.length ≤ draft.values.length := by omega
  obtain ⟨held, store', hsettle, lowered, later, slots', hrun, hruns, hsettled⟩ :=
    lowerExpr_settles hscope (exists_lookup_scopeOf name declared) hplain hcount hholds
  obtain ⟨code, hcode, hexecute⟩ := hruns.runs
  have hread : slots' lowered.value = held.read store' := hsettled.liesAt.read hsettled.holds
  refine ⟨lowered.value, later, code, slots', held, store', ?_, hcode, hexecute _ (prefix_refl _), hsettled.holds, hsettle,
    hread, fun hsteady => ?_⟩
  · show (load expr.info ((lowerExpr _ expr false).run draft).1).run ((lowerExpr _ expr false).run draft).2 = _
    rw [hrun, load_of_plain _ hsettled.plain]
    rfl
  · rw [hread]
    exact Source.Expr.evaluate_of_settle hplain hsteady hsettle

section

/-- Some arithmetic of whole numbers. -/
def integers : Algebra Int where
  constant value := value.raw?.getD 0
  unary op a := match op with
    | .negate => -a
    | _ => a
  binary op a b := match op with
    | .add => a + b
    | .multiply => a * b
    | .less => if a < b then 1 else 0
    | .greater => if b < a then 1 else 0
    | _ => 0
  count op a := match op with
    | .increment => a + 1
    | .decrement => a - 1
  greater_eq _ _ := rfl
  greaterEqual_eq _ _ := rfl

/-- Two whole numbers. -/
def twoNumbers : List Source.Variable := [⟨0, ⟨"x", .unknown⟩, 0⟩, ⟨1, ⟨"y", .unknown⟩, 0⟩]

/-- The draft of a function of two whole numbers. -/
def numbersDraft : Draft := startDraft (declaredValues 0 twoNumbers) [] []

/-- `(y = x++) > -(x = x * 7)`: both sides change variables, but not what the other side stands for. -/
def undisturbed : Expr :=
  let info : ExprInfo := ⟨0, 0, .unknown⟩
  .binary info .greater (.assign info (.variableRef info 1) (.count info .increment .after (.variableRef info 0))) (.unary info .negate
      (.assign info (.variableRef info 0) (.binary info .multiply (.variableRef info 0) (.literal info (.int 7)))))

/-- With three in `x`, the code of `(y = x++) > -(x = x * 7)` compares three with minus twenty-eight, as evaluation does. -/
theorem lowerValue_evaluates_undisturbed : undisturbed.Steady ∧ ∃ value later code slots',
      (lowerValue (scopeOf "f" twoNumbers) undisturbed).run numbersDraft = (value, later) ∧ later.code = code ∧
        executeCode integers later.literals code (fun _ => 3) = some slots' ∧ slots' value = 1 ∧ slots' 1 = 28 ∧ slots' 2 = 3 := by
  have hsteady : undisturbed.Steady := by simp [undisturbed, Expr.Steady, Expr.held?, Expr.changes]
  have hplain : undisturbed.Plain (twoNumbers.map (·.id)) := .binary _ _ (.assign _ _ (by decide) (.count _ _ _ _ (by decide)))
      (.unary _ _ (.assign _ _ (by decide) (.binary _ _ (.variableRef _ (by decide)) (.literal _ _))))
  have hdraft : twoNumbers.length < numbersDraft.values.length := by decide
  have hholds : (scopeOf "f" twoNumbers).Holds (fun _ => (3 : Int)) (fun _ => 3) := fun _ _ _ => rfl
  obtain ⟨value, later, code, slots', held, store', hrun, hcode, hexecute, hholds', -, -, hevaluate⟩ :=
    lowerValue_evaluates integers "f" twoNumbers hplain hdraft hholds
  obtain ⟨hvalue, hstore⟩ := Prod.mk.inj (Option.some.inj (hevaluate hsteady))
  refine ⟨hsteady, value, later, code, slots', hrun, hcode, hexecute, hvalue.symm, ?_, ?_⟩
  · exact (hholds' 0 1 rfl).trans (by rw [← hstore]; decide)
  · exact (hholds' 1 2 rfl).trans (by rw [← hstore]; decide)

/-- `x + x++`: the left operand stands for the variable that the right operand changes. -/
def disturbed : Expr :=
  let info : ExprInfo := ⟨0, 0, .unknown⟩
  .binary info .add (.variableRef info 0) (.count info .increment .after (.variableRef info 0))

/-- Not every plain expression is evaluated by value: with one in `x`, the value of `x + x++` is two, but its code adds two
and one. -/
theorem lowerValue_disturbed : disturbed.Plain (twoNumbers.map (·.id)) ∧ (disturbed.evaluate integers fun _ => 1).map (·.1) = some 2 ∧
      ∃ value later slots', (lowerValue (scopeOf "f" twoNumbers) disturbed).run numbersDraft = (value, later) ∧
        executeCode integers later.literals later.code (fun _ => 1) = some slots' ∧ slots' value = 3 :=
  ⟨.binary _ _ (.variableRef _ (by decide)) (.count _ _ _ _ (by decide)), by decide, _, _, _, rfl, rfl, by decide⟩

end

end TagAsm.Lower
