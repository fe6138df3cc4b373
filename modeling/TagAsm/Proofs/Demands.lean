import TagAsm.Proofs.Effects
import TagAsm.Proofs.Rearranging

/-!
# What statements and initializers ask for

The code of a statement has the same effect whatever was selected before it, and in a program that differs in the arrangement of
statements too: no step looks into the body of another subroutine. The same holds for initializers.
-/

namespace TagAsm.Select

open Asm Abi SelectM
open TagAsm.Flow (SubroutineId ValueId LiteralId Subroutine ClassLayout)

/-! ## What is the same whatever was kept -/

section

/-- The code of an operator depends on nothing that was kept. -/
theorem operatorCode_fixed (frame : Frame) (kind : Flow.Operator) (res : ValueId) (opds : List ValueId) :
    Fixed (operatorCode frame kind res opds) := by
  unfold operatorCode
  split
  · unfold valueCallCode
    split
    · exact .refuse _
    · exact .bind (valueArgument_fixed _ _) fun _ => .bind (valueArgument_fixed _ _) fun _ =>
        .bind (valueArguments_fixed _ _) fun _ => .pure _
  · exact .bind (checkOperands_fixed _ _) fun _ => .bind (referencePlace_fixed _ _) fun _ =>
      .bind (valueArguments_fixed _ _) fun _ => .pure _
  · exact .bind (checkOperands_fixed _ _) fun _ => .bind (valueArgument_fixed _ _) fun _ =>
      .bind (valueArguments_fixed _ _) fun _ => .pure _

variable (cx : Context)

/-- Neither does that of a question for a type. -/
theorem typeOfCode_fixed (frame : Frame) (res : Option ValueId) (args : List ValueId) : Fixed (typeOfCode frame res args) := by
  unfold typeOfCode
  split
  · exact .bind (.require _ _) fun _ => .bind (valueArgument_fixed _ _) fun _ => .bind (valueArgument_fixed _ _) fun _ => .pure _
  · exact .refuse _

/-- Neither does that of a conversion. -/
theorem castCode_fixed (frame : Frame) (tgt : Option TypeId) (res : ValueId) (args : List ValueId) :
    Fixed (castCode cx frame tgt res args) := by
  unfold castCode
  split
  · split
    · refine .bind (valueArgument_fixed _ _) fun _ => .bind (valueArgument_fixed _ _) fun _ => .bind (.lookUp _) fun kind => ?_
      split
      · exact .pure _
      · exact .pure _
      · exact .bind (.lookUp _) fun _ => .refuse _
    · exact .refuse _
  · exact .refuse _

variable (id : SubroutineId) (sub : Subroutine)

/-- Neither does the exit code. -/
theorem exitCode_fixed : Fixed (exitCode cx id sub) := by
  refine .bind (.lookUp _) fun sig => .bind (.require _ _) fun ⟨params, ret⟩ => ?_
  by_cases hp : params.isEmpty = true
  · simp only [hp, if_true]
    refine .bind (.lookUp _) fun kind => ?_
    split
    case h_1 | h_2 | h_7 => exact .pure _
    all_goals exact .bind (.lookUp _) fun _ => .refuse _
  · simp only [hp]
    exact .refuse_bind

/-- Neither does how a subroutine is left. -/
theorem exitOf_fixed : Fixed (exitOf cx id sub) := by
  unfold exitOf
  split
  · exact .bind (exitCode_fixed cx id sub) fun _ => .pure _
  · exact .pure _

end

/-! ## Statements -/

/-- The same selection for a program with other subroutines. -/
def Context.withSubs (cx : Context) (others : Table Subroutine) : Context :=
  { cx with program := Select.withSubs cx.program others }

section

variable {cx : Context} {others : Table Subroutine} {names : Table String}

/-- What helpers are called with does not matter for the effect. -/
theorem callHelper_parallel (frame : Frame) (helper : Helper) (args arguments' : List Argument) :
    Parallel names Whatever (callHelper frame helper args) (callHelper frame helper arguments') :=
  .of_makes (makes_callHelper _ _ _) (makes_callHelper _ _ _)

/-- A string has the same effect whatever was kept. -/
theorem stringArguments_parallel (contents : String) : Parallel names Whatever (stringArguments contents) (stringArguments contents) :=
  .of_makes (makes_stringArguments _) (makes_stringArguments _)

/-- The symbol of a subroutine is the same in both programs, and so is what is asked for. -/
theorem subroutineSymbol_parallel (h : AllAkin cx.program.subroutines others) (id : SubroutineId) :
    Parallel names (· = ·) (subroutineSymbol cx id) (subroutineSymbol (cx.withSubs others) id) := by
  refine .bind (.require (h.getElem? id) _) fun sub other ha => .bind .get fun kept kept' hk => ?_
  have hsy : Option.Rel (· = ·) (kept.symbols.subroutine? id) (kept'.symbols.subroutine? id) := by
    rw [SymbolTable.subroutine?, SymbolTable.subroutine?, hk.1, hk.2]
    cases names[id]? with
    | none => exact .none
    | some name => exact .some rfl
  refine .bind (.require hsy _) fun symbol _ heq => ?_
  subst heq
  rw [ha.isSome_body?, ha.owner_eq]
  by_cases hb : sub.body?.isSome = true
  · simp only [hb, if_true]
    by_cases ho : sub.owner.isSome = true
    · simp only [ho, if_true]
      have hak : Makes (modify fun kept => { kept with
          symbols := (kept.symbols.referenceMethod id).2
          queue := if (kept.symbols.referenceMethod id).1 then kept.queue ++ [.subroutine id] else kept.queue })
          ⟨[.subroutine id], []⟩ := makes_change fun _ => .method id rfl rfl
      exact .next (.of_makes hak hak) fun _ _ => .pure rfl
    · simp only [ho]
      exact .pure rfl
  · simp only [hb]
    exact .next (.of_makes (makes_addExtern symbol) (makes_addExtern symbol)) fun _ _ => .pure rfl

/-- To take words out of values has no effect. -/
theorem makes_unwrapCode (frame : Frame) (scratch : Int) (place : Nat) (args : List (Argument × Primitive)) :
    Makes (unwrapCode frame scratch place args) .none := by
  induction args generalizing place with
  | nil => exact .pure _
  | cons entry rest ih =>
    exact .next (makes_callHelper _ _ _) fun _ => .next (ih (place + 1)) fun _ => .pure _

/-- To make a value from a word has no effect. -/
theorem makes_wrapCode (frame : Frame) (scratch : Int) (res : Argument) (kind : Option Primitive) :
    Makes (wrapCode frame scratch res kind) .none := by
  cases kind with
  | none => exact .pure _
  | some kind => exact .next (makes_callHelper _ _ _) fun _ => .pure _

section

variable (h : AllAkin cx.program.subroutines others) (rt routine' : Routine) (hf : routine'.frame = rt.frame)
  (hs : routine'.scratch = rt.scratch) (res : ValueId) (callee : SubroutineId)
include h hf hs

/-- A native call has the same effect in both programs. -/
theorem foreignCallCode_parallel {sub other : Subroutine} (ha : Akin sub other) (args : List ValueId) :
    Parallel names Whatever (foreignCallCode cx rt res callee sub args)
      (foreignCallCode (cx.withSubs others) routine' res callee other args) := by
  unfold foreignCallCode
  rw [ha.symbol_eq, ha.ty_eq, hf, hs]
  refine .after (.lookUp _) fun sig => .after (.require _ _) fun ⟨params, ret⟩ =>
    .after (checkArguments_fixed _ _ _) fun _ => ?_
  by_cases hm : Register.arguments.length < params.length
  · simp only [hm, if_true]
    exact .refuse_bind
  · simp only [hm, if_false]
    refine .after (parameterKinds_fixed cx _ _) fun kinds => .after (returnKind_fixed cx _ _) fun returned =>
      .after (.require _ _) fun scratch => .after (valueArguments_fixed _ _) fun vals => .after (valueArgument_fixed _ _) fun res =>
      .next ((subroutineSymbol_parallel h callee).mono fun _ _ _ => trivial) fun sym symbol' => ?_
    exact .next (.of_makes (makes_unwrapCode _ _ _ _) (makes_unwrapCode _ _ _ _)) fun _ _ =>
      .next (.of_makes (makes_wrapCode _ _ _ _) (makes_wrapCode _ _ _ _)) fun _ _ => .pure trivial

/-- So has any call. -/
theorem callCode_parallel (args : List ValueId) : Parallel names Whatever (callCode cx rt res callee args)
      (callCode (cx.withSubs others) routine' res callee args) := by
  refine .bind (.require (h.getElem? callee) _) fun sub other ha => ?_
  rw [ha.isForeign_eq, ha.ty_eq]
  by_cases hfr : sub.isForeign = true
  · simp only [hfr, if_true]
    exact foreignCallCode_parallel h rt routine' hf hs res callee ha args
  · simp only [hfr]
    have hn : (cx.withSubs others).program.subroutineName callee = cx.program.subroutineName callee := subroutineName_eq h callee
    rw [hf, hn]
    refine .after (.lookUp _) fun sig => ?_
    have hc : Parallel names Whatever (do
        let res ← valueArgument rt.frame res
        let passed ← valueArguments rt.frame args
        let sym ← subroutineSymbol cx callee
        return callDirect rt.frame sym (res :: passed)) (do
        let res ← valueArgument rt.frame res
        let passed ← valueArguments rt.frame args
        let sym ← subroutineSymbol (cx.withSubs others) callee
        return callDirect rt.frame sym (res :: passed)) :=
      .after (valueArgument_fixed _ _) fun _ => .after (valueArguments_fixed _ _) fun _ =>
        .bind (subroutineSymbol_parallel h callee) fun _ _ _ => .pure trivial
    cases sig with
    | none => exact hc
    | some found => exact .after (.lookUp _) fun _ => .after (checkArguments_fixed _ _ _) fun _ => hc

end

section

variable (frame : Frame)

/-- So has a default value. -/
theorem makeDefault_parallel (tgt target' : Argument) (ty : TypeId) : Parallel names Whatever (makeDefault cx frame tgt ty)
      (makeDefault (cx.withSubs others) frame target' ty) := by
  refine .after (.lookUp _) fun kind => ?_
  cases kind with
  | primitive kind =>
    cases kind with
    | string => exact .next (stringArguments_parallel _) fun _ _ => callHelper_parallel _ _ _ _
    | _ => exact callHelper_parallel _ _ _ _
  | _ => exact callHelper_parallel _ _ _ _

/-- So has a primitive value. -/
theorem makePrimitiveCode_parallel (tgt : TypeId) (kind : Primitive) (name : String) (dst : Argument) (args : List ValueId) :
    Parallel names Whatever (makePrimitiveCode cx frame tgt kind name dst args)
      (makePrimitiveCode (cx.withSubs others) frame tgt kind name dst args) := by
  unfold makePrimitiveCode
  split
  · exact .next (makeDefault_parallel _ _ _ _) fun _ _ => .pure trivial
  · exact .after (valueArgument_fixed _ _) fun _ => .pure trivial
  · exact .refuse _

/-- So has a value of any type. -/
theorem makeCode_parallel (tgt : Option TypeId) (res : ValueId) (args : List ValueId) :
    Parallel names Whatever (makeCode cx frame tgt res args) (makeCode (cx.withSubs others) frame tgt res args) := by
  cases tgt with
  | none => exact .refuse _
  | some tgt =>
    refine .bind (.lookUp _) fun name _ ⟨hsm, hn⟩ => ?_
    subst hsm
    refine .after (valueArgument_fixed _ _) fun dst => .after (.lookUp _) fun kind => ?_
    cases kind with
    | primitive kind => exact makePrimitiveCode_parallel _ _ _ _ _ _
    | array element =>
      exact .after (checkNoArguments_fixed _ _) fun _ => .next (callHelper_parallel _ _ _ _) fun _ _ => .pure trivial
    | classType decl args =>
      refine .after (checkNoArguments_fixed _ _) fun _ => ?_
      by_cases hc : (cx.program.classOfType? tgt).isNone = true
      · have hc' : ((cx.withSubs others).program.classOfType? tgt).isNone = true := hc
        simp only [hc, hc', if_true]
        exact .refuse_bind
      · have hc' : ¬((cx.withSubs others).program.classOfType? tgt).isNone = true := hc
        simp only [hc, hc']
        exact .next (.of_makes (makes_initializerSymbol hn) (makes_initializerSymbol hn)) fun _ _ => .pure trivial
    | _ => exact .refuse _

/-- So has a builtin. -/
theorem builtinCode_parallel (kind : Flow.Builtin) (tmpl : Option TypeId) (res : Option ValueId) (args : List ValueId) :
    Parallel names Whatever (builtinCode cx frame kind tmpl res args)
      (builtinCode (cx.withSubs others) frame kind tmpl res args) := by
  cases kind with
  | print =>
    exact .after (valueArguments_fixed _ _) fun vals =>
      .of_makes (.collect (fun _ => makes_callHelper _ _ _) vals) (.collect (fun _ => makes_callHelper _ _ _) vals)
  | typeOf => exact (Parallel.of_fixed (typeOfCode_fixed _ _ _)).mono fun _ _ _ => trivial
  | cast => exact .after (.require _ _) fun _ => (Parallel.of_fixed (castCode_fixed cx _ _ _ _)).mono fun _ _ _ => trivial
  | make => exact .after (.require _ _) fun _ => makeCode_parallel _ _ _ _

end

/-- So has the name of a member. -/
theorem nameArguments_parallel (name : LiteralId) :
    Parallel names Whatever (nameArguments cx name) (nameArguments (cx.withSubs others) name) := by
  have hsm : (cx.withSubs others).program.literals = cx.program.literals := rfl
  unfold nameArguments
  rw [hsm]
  split
  · exact stringArguments_parallel _
  · exact .refuse _

/-- So has an assignment. -/
theorem assignCode_parallel (h : AllAkin cx.program.subroutines others) (frame : Frame) (dst : ValueId) (src : Flow.AssignSource) :
    Parallel names Whatever (assignCode cx frame dst src) (assignCode (cx.withSubs others) frame dst src) := by
  refine .after (valueArgument_fixed _ _) fun tgt => ?_
  cases src with
  | value id => exact .after (valueArgument_fixed _ _) fun _ => .pure trivial
  | literal id =>
    refine .after (.require _ _) fun lit => ?_
    have hm : ∀ contents contents' : List Argument, Parallel names Whatever (do
        let make ← callHelper frame (.make lit.value.primitive) (tgt :: contents)
        return dropValue frame tgt ++ make) (do
        let make ← callHelper frame (.make lit.value.primitive) (tgt :: contents')
        return dropValue frame tgt ++ make) :=
      fun _ _ => .next (callHelper_parallel _ _ _ _) fun _ _ => .pure trivial
    split
    · exact .next (stringArguments_parallel _) fun _ _ => hm _ _
    · exact .after (.require _ _) fun _ => .after (.pure _) fun _ => hm _ _
  | subroutine id =>
    refine .bind (.require (h.getElem? id) _) fun sub other ha => ?_
    rw [ha.isForeign_eq, ha.symbol_eq]
    by_cases hfr : sub.isForeign = true
    · simp only [hfr, if_true]
      exact .refuse_bind
    · simp only [hfr]
      exact .bind (subroutineSymbol_parallel h id) fun _ _ _ => .next (callHelper_parallel _ _ _ _) fun _ _ => .pure trivial

section

variable (h : AllAkin cx.program.subroutines others) (rt routine' : Routine) (hf : routine'.frame = rt.frame)
  (hs : routine'.scratch = rt.scratch)
include h hf hs

/-- What a statement does has the same effect, in whatever order the statements come. -/
theorem actionCode_parallel (act : Flow.Action) :
    Parallel names Whatever (actionCode cx rt act) (actionCode (cx.withSubs others) routine' act) := by
  cases act with
  | operator kind res args =>
    rw [actionCode, actionCode, hf]
    exact (Parallel.of_fixed (operatorCode_fixed _ _ _ _)).mono fun _ _ _ => trivial
  | call res callee args => exact callCode_parallel h rt routine' hf hs res callee args
  | member res obj name =>
    rw [actionCode, actionCode, hf]
    exact .next (nameArguments_parallel name) fun _ _ => .after (valueArgument_fixed _ _) fun _ =>
      .after (valueArgument_fixed _ _) fun _ => .pure trivial
  | memberRef res obj name =>
    rw [actionCode, actionCode, hf]
    exact .next (nameArguments_parallel name) fun _ _ => .after (referencePlace_fixed _ _) fun _ =>
      .after (valueArgument_fixed _ _) fun _ => .pure trivial
  | builtin kind tmpl res args =>
    rw [actionCode, actionCode, hf]
    exact builtinCode_parallel _ _ _ _ _
  | assign dst src =>
    rw [actionCode, actionCode, hf]
    exact assignCode_parallel h _ _ _

/-- So has a statement. -/
theorem statementCode_parallel (hv : routine'.body.values = rt.body.values) (num number' : Nat) (stmt : Flow.Statement) :
    Parallel names Whatever (statementCode cx rt num stmt) (statementCode (cx.withSubs others) routine' number' stmt) := by
  unfold statementCode
  have ht : (cx.withSubs others).program.actionText routine'.body (cx.withSubs others).colored
      stmt.action = cx.program.actionText rt.body cx.colored stmt.action := actionText_eq h hv _ _
  rw [ht]
  refine .after (.lookUp _) fun text => .next (.tryCatch (actionCode_parallel h _ _ hf hs _) fun refusal => ?_) fun _ _ =>
    .pure trivial
  cases refusal with
  | rejected kind msg => exact .next (.of_makes (makes_addError _ _ _) (makes_addError _ _ _)) fun _ _ => .pure trivial
  | _ => exact .refuse _

end

/-! ## Initializers -/

/-- So has an initializer. -/
theorem initializerCode_parallel (h : AllAkin cx.program.subroutines others) (decl : ClassLayout) (sym symbol' : String) :
    Parallel names Whatever (initializerCode cx decl sym) (initializerCode (cx.withSubs others) decl symbol') := by
  have hp : ∀ name, Makes (memberPlaceCode initializerFrame name) .none := fun name => .next (makes_stringArguments name) fun _ => .pure _
  refine .after (.lookUp _) fun name => .next (stringArguments_parallel name) fun _ _ => .next (callHelper_parallel _ _ _ _) fun _ _ =>
    .next (.collect (fun field => ?_) _) fun _ _ => .next (.collect (fun method => ?_) _) fun _ _ => .pure trivial
  · exact .next (.of_makes (hp field.name) (hp field.name)) fun _ _ => .next (makeDefault_parallel _ _ _ _) fun _ _ =>
      .pure trivial
  · exact .bind (subroutineSymbol_parallel h method.subroutine) fun _ _ _ => .next (.of_makes (hp method.name) (hp method.name))
      fun _ _ => .next (callHelper_parallel _ _ _ _) fun _ _ => .pure trivial

end

end TagAsm.Select
