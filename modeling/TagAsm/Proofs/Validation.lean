import TagAsm.Proofs.Statements

/-!
# Checks come before code

Statements are emitted step by step, and what was emitted stays if a step is refused. Still, nothing is left of what is rejected: a
step that can reject something only looks at the program (`SelectM.Fixed`), and comes before all steps that note or emit something,
which reject nothing (`EmitM.Completes`). So an action adds all of its code to what was emitted and leaves the frame, or is rejected,
and then everything is as it was (`EmitM.Writes`).
-/

namespace TagAsm.Select

open Asm Abi SelectM
open TagAsm.Flow (SubroutineId ValueId BlockId Block)

/-! ## Steps that only look -/

section

variable {α β : Type}

/-- Whatever was kept, the outcome is the same, and what was kept stays. -/
def SelectM.Fixed (step : SelectM α) : Prop :=
  ∃ out : Except Fault (Except Refusal α), ∀ kept, step.run.run kept = out.map fun result => (result, kept)

namespace SelectM.Fixed

theorem pure (res : α) : Fixed (pure res) := ⟨.ok (.ok res), fun _ => rfl⟩

theorem refuse (refusal : Refusal) : Fixed (refuse refusal : SelectM α) := ⟨.ok (.error refusal), fun _ => rfl⟩

theorem refuse_bind {refusal : Refusal} {next : α → SelectM β} : Fixed (SelectM.refuse refusal >>= next) :=
  ⟨.ok (.error refusal), fun _ => rfl⟩

theorem lookUp (found : Except Fault α) : Fixed (lookUp found) := by
  cases found with
  | error fault => exact ⟨.error fault, fun _ => rfl⟩
  | ok res => exact ⟨.ok (.ok res), fun _ => rfl⟩

theorem require (val : Option α) (refusal : Refusal) : Fixed (require val refusal) := by
  cases val with
  | none => exact refuse refusal
  | some val => exact pure val

theorem bind {first : SelectM α} {next : α → SelectM β} (hf : Fixed first) (hn : ∀ res, Fixed (next res)) : Fixed (first >>= next) := by
  obtain ⟨out, ho⟩ := hf
  have hrun : ∀ kept, (first >>= next).run.run kept =
      (first.run.run kept >>= fun found => (ExceptT.bindCont next found.1).run found.2) := fun _ => rfl
  cases out with
  | error fault => exact ⟨.error fault, fun kept => by rw [hrun, ho]; rfl⟩
  | ok found =>
    cases found with
    | error refusal => exact ⟨.ok (.error refusal), fun kept => by rw [hrun, ho]; rfl⟩
    | ok res =>
      obtain ⟨outcome', ho'⟩ := hn res
      exact ⟨outcome', fun kept => by rw [hrun, ho]; exact ho' kept⟩

/-- A step that only looks leaves what was kept. -/
theorem after_eq {step : SelectM α} (h : Fixed step) {kept after : Selection} {out : Except Refusal α}
    (hrun : step.run.run kept = .ok (out, after)) : after = kept := by
  obtain ⟨fixed, hf⟩ := h
  rw [hf kept] at hrun
  cases fixed with
  | error => cases hrun
  | ok res => exact (ok_pair_inj hrun).2.symm

theorem collect {step : α → SelectM (List β)} (hs : ∀ a, Fixed (step a)) (elems : List α) : Fixed (collect step elems) := by
  induction elems with
  | nil => exact pure []
  | cons a rest ih => exact bind (hs a) fun _ => bind ih fun _ => pure _

end SelectM.Fixed

end

theorem valueArgument_fixed (frame : Frame) (id : ValueId) : Fixed (valueArgument frame id) := .require _ _

theorem valueArguments_fixed (frame : Frame) (ids : List ValueId) : Fixed (valueArguments frame ids) :=
  .collect (fun id => .bind (valueArgument_fixed frame id) fun _ => .pure _) ids

theorem referencePlace_fixed (frame : Frame) (id : ValueId) : Fixed (referencePlace frame id) := by
  refine .bind (.require _ _) fun slot => ?_
  cases slot.byReference with
  | true => exact .pure _
  | false => exact .refuse _

theorem checkOperands_fixed (kind : Flow.Operator) (given : Nat) : Fixed (checkOperands kind given) := by
  unfold checkOperands
  split
  · exact .pure _
  · exact .refuse _

theorem checkArguments_fixed (name : String) (expected given : Nat) : Fixed (checkArguments name expected given) := by
  unfold checkArguments
  split
  · exact .pure _
  · exact .refuse _

theorem checkNoArguments_fixed (name : String) (args : List ValueId) : Fixed (checkNoArguments name args) := by
  unfold checkNoArguments
  split
  · exact .pure _
  · exact .refuse _

variable (cx : Context)

theorem parameterKinds_fixed (name : String) (params : List TypeId) : Fixed (parameterKinds cx name params) := by
  refine .collect (fun ty => .bind (.lookUp _) fun kind => ?_) params
  cases kind with
  | some kind => exact .pure _
  | none => exact .bind (.lookUp _) fun _ => .refuse _

theorem returnKind_fixed (name : String) (ty : TypeId) : Fixed (returnKind cx name ty) := by
  refine .bind (.lookUp _) fun isVoid => ?_
  cases isVoid with
  | true => exact .pure _
  | false =>
    refine .bind (.lookUp _) fun kind => ?_
    cases kind with
    | some kind => exact .pure _
    | none => exact .bind (.lookUp _) fun _ => .refuse _

/-! ## Steps that reject nothing -/

section

variable {α β : Type}

/-- Nothing is rejected, whatever was kept. -/
def SelectM.Accepts (step : SelectM α) : Prop :=
  ∀ kept refusal after, step.run.run kept = .ok (.error refusal, after) → refusal.isRejection = false

theorem SelectM.Accepts.of_selects (cx : Context) {step : SelectM α} {post : α → Selection → Prop}
    (h : ∀ kept, Selects cx kept step post (.lenient cx)) : Accepts step :=
  fun kept refusal after hrun => ((h kept _ after hrun).2.2 refusal rfl).1

theorem SelectM.Accepts.modifyGet (change : Selection → α × Selection) : Accepts (modifyGet change) := by
  intro _ _ _ hrun
  cases hrun

theorem SelectM.Accepts.lookUp (found : Except Fault α) : Accepts (lookUp found) := by
  intro _ _ _ hrun
  cases found <;> cases hrun

namespace EmitM

/-- How a step ends, next to its code: the code is added to what was emitted, or it is refused, and `left` holds of what is left. -/
inductive Ends (items : List Item) (frame : Frame) (left : Refusal → Emitter → Prop) :
    Except Fault (Except Refusal (List Item) × Selection) → Except Fault (Except Refusal Unit × Emitter) → Prop where
  | fault (fault : Fault) : Ends items frame left (.error fault) (.error fault)
  | written (new : List Item) (later : Selection) :
    Ends items frame left (.ok (.ok new, later)) (.ok (.ok (), ⟨later, items ++ new, frame⟩))
  | refused (refusal : Refusal) (after : Emitter) (h : left refusal after) :
    Ends items frame left (.ok (.error refusal, after.kept)) (.ok (.error refusal, after))

/-- The step emits this code in the frame; and where it is rejected, everything is as it was. -/
def Writes (step : EmitM Unit) (frame : Frame) (code : SelectM (List Item)) : Prop :=
  ∀ kept items, Ends items frame (fun refusal after => refusal.isRejection = true → after = ⟨kept, items, frame⟩)
    (code.run.run kept) (step.run.run ⟨kept, items, frame⟩)

/-- The step emits this code in the frame, and is not rejected. -/
def Completes (step : EmitM Unit) (frame : Frame) (code : SelectM (List Item)) : Prop :=
  ∀ kept items, Ends items frame (fun refusal _ => refusal.isRejection = false) (code.run.run kept) (step.run.run ⟨kept, items, frame⟩)

/-- A step of selection leaves what was emitted. -/
theorem run_lift_bind (step : SelectM α) (next : α → EmitM Unit) (kept : Selection) (items : List Item) (frame : Frame) :
    (liftM step >>= next).run.run ⟨kept, items, frame⟩ = step.run.run kept >>= fun res =>
      (ExceptT.bindCont next res.1).run ⟨res.2, items, frame⟩ := by
  show (ofSelect step >>= next).run.run _ = _
  unfold ofSelect
  rw [ExceptT.run_bind, StateT.run_bind]
  cases h : step.run.run kept with
  | error fault => simp [h]; rfl
  | ok found => simp [h]; rfl

/-- What a step emits is its code, if nothing was emitted before. -/
theorem run_code (step : EmitM Unit) (frame : Frame) (kept : Selection) : (step.code frame).run.run kept =
      (fun res => (res.1.map fun _ => res.2.items, res.2.kept)) <$> step.run.run ⟨kept, [], frame⟩ := by
  unfold EmitM.code
  cases h : step.run.run ⟨kept, [], frame⟩ with
  | error | ok => simp [h]

variable {frame : Frame} {code code' : SelectM (List Item)} {step first rest : EmitM Unit}

namespace Completes

theorem of_eq (h : Completes step frame code) (heq : code = code') : Completes step frame code' := heq ▸ h

theorem emit (new : List Item) : Completes (emit new) frame (pure new) := fun kept _ => .written new kept

theorem nothing : Completes (pure ()) frame (pure []) := by
  intro kept items
  have h := (emit [] : Completes _ frame _) kept items
  show Ends _ _ _ _ (.ok (.ok (), ⟨kept, items, frame⟩))
  rwa [show (EmitM.emit []).run.run ⟨kept, items, frame⟩ = .ok (.ok (), ⟨kept, items ++ [], frame⟩) from rfl, List.append_nil] at h

/-- A step of selection that rejects nothing may stand anywhere. -/
theorem pass {step : SelectM α} {next : α → EmitM Unit} {code : α → SelectM (List Item)} (hs : Accepts step)
    (h : ∀ res, Completes (next res) frame (code res)) : Completes (liftM step >>= next) frame (step >>= code) := by
  intro kept items
  rw [run_lift_bind, ExceptT.run_bind, StateT.run_bind]
  rcases hrun : step.run.run kept with fault | ⟨refusal | res, later⟩
  · exact .fault fault
  · exact .refused refusal ⟨later, items, frame⟩ (hs kept refusal later hrun)
  · exact h res later items

/-- Codes that are completed in a row are completed as one. -/
theorem append (hf : Completes first frame code) (hr : Completes rest frame code') :
    Completes (first >>= fun _ => rest) frame (do return (← code) ++ (← code')) := by
  intro kept items
  have hk := hf kept items
  rw [ExceptT.run_bind, StateT.run_bind, ExceptT.run_bind, StateT.run_bind]
  generalize first.run.run ⟨kept, items, frame⟩ = one, code.run.run kept = other at hk ⊢
  cases hk with
  | fault fault => exact .fault fault
  | refused refusal after h => exact .refused refusal after h
  | written new later =>
    have hl := hr later (items ++ new)
    show Ends _ _ _ ((code' >>= fun more => pure (new ++ more)).run.run later) (rest.run.run ⟨later, items ++ new, frame⟩)
    rw [ExceptT.run_bind, StateT.run_bind]
    generalize rest.run.run _ = one, code'.run.run later = other at hl ⊢
    cases hl with
    | fault fault => exact .fault fault
    | refused refusal after h => exact .refused refusal after h
    | written more last =>
      rw [List.append_assoc]
      exact .written (new ++ more) last

/-- A call leaves the frame as it was. -/
theorem callThrough (args : List Argument) (transfer : List Instruction) :
    Completes (callThrough args transfer) frame (pure (Item.code (frame.callCode args transfer))) := by
  intro kept items
  have hframe : ((frame.marshal args).2.2.release (frame.marshal args).1).2 = frame := by
    simp [Frame.marshal, Frame.release, Frame.shrink, Frame.grow]
  have hrun : (EmitM.callThrough args transfer).run.run ⟨kept, items, frame⟩ =
      .ok (.ok (), ⟨kept, items ++ Item.code (frame.callCode args transfer), frame⟩) := by
    have hitems (a b c : List Instruction) : items ++ Item.code a ++ Item.code b ++ Item.code c = items ++ Item.code (a ++ b ++ c) := by
      simp [Item.code]
    exact congrArg₂ (fun items frame => Except.ok (Except.ok (), Emitter.mk kept items frame)) (hitems _ _ _) hframe
  rw [hrun]
  exact .written _ kept

theorem callHelper (helper : Helper) (args : List Argument) :
    Completes (callHelper helper args) frame (Select.callHelper frame helper args) := by
  have h : Completes (liftM (addExtern helper.symbol)) frame (addExtern helper.symbol >>= fun _ => pure []) :=
    .pass (.modifyGet _) fun _ => nothing
  exact (append (callThrough args _) h).of_eq (by simp [Select.callHelper, Select.callDirect])

end Completes

namespace Writes

/-- What completes code writes it. -/
theorem of_completes (h : Completes step frame code) : Writes step frame code := by
  intro kept items
  have hk := h kept items
  generalize step.run.run _ = one, code.run.run kept = other at hk ⊢
  cases hk with
  | fault fault => exact .fault fault
  | written new later => exact .written new later
  | refused refusal after h => exact .refused refusal after fun hr => absurd hr (by simp [h])

/-- A step that only looks may stand before what can be rejected. -/
theorem look {step : SelectM α} {next : α → EmitM Unit} {code : α → SelectM (List Item)} (hs : Fixed step)
    (h : ∀ res, Writes (next res) frame (code res)) : Writes (liftM step >>= next) frame (step >>= code) := by
  intro kept items
  obtain ⟨out, ho⟩ := hs
  rw [run_lift_bind, ExceptT.run_bind, StateT.run_bind, ho kept]
  rcases out with fault | refusal | res
  · exact .fault fault
  · exact .refused refusal ⟨kept, items, frame⟩ fun _ => rfl
  · exact h res kept items

theorem inFrame {next : Frame → EmitM Unit} (h : Writes (next frame) frame code) : Writes (getFrame >>= next) frame code :=
  fun kept items => h kept items

/-- A refusal leaves everything as it was. -/
theorem refuse (refusal : Refusal) : Writes (liftM (refuse refusal : SelectM Unit)) frame (SelectM.refuse refusal) :=
  fun kept items => .refused refusal ⟨kept, items, frame⟩ fun _ => rfl

theorem refuse_bind {refusal : Refusal} {next : Unit → EmitM Unit} {code : Unit → SelectM (List Item)} :
    Writes (liftM (SelectM.refuse refusal : SelectM Unit) >>= next) frame (SelectM.refuse refusal >>= code) :=
  fun kept items => .refused refusal ⟨kept, items, frame⟩ fun _ => rfl

theorem callThrough {args : List Argument} {transfer : List Instruction} :
    Writes (callThrough args transfer) frame (pure (Item.code (frame.callCode args transfer))) :=
  of_completes (.callThrough args transfer)

end Writes

/-! ## What statements emit -/

section

variable (cx : Context) (rt : Routine)

theorem subroutineSymbol_accepts (id : SubroutineId) : Accepts (subroutineSymbol cx id) :=
  .of_selects cx fun _ => subroutineSymbol_selects False.elim

theorem makeDefault_completes (tgt : Argument) (ty : TypeId) :
    Completes (makeDefault cx tgt ty) frame (Select.makeDefault cx frame tgt ty) := by
  refine .pass (.lookUp _) fun kind => ?_
  rcases kind with _ | _ | prim | _
  case primitive =>
    cases prim with
    | string => exact .pass (.modifyGet _) fun _ => .callHelper _ _
    | _ => exact .callHelper _ _
  all_goals exact .callHelper _ _

theorem unwrap_completes (scratch : Int) (place : Nat) (entries : List (Argument × Primitive)) :
    Completes (unwrap scratch place entries) frame (unwrapCode frame scratch place entries) := by
  induction entries generalizing place with
  | nil => exact .nothing
  | cons entry rest ih =>
    have hr := (Completes.emit (storeResult (scratch + 8 * (place : Nat)))).append (ih (place + 1))
    exact ((Completes.callHelper _ _).append hr).of_eq (by simp [unwrapCode])

/-- A value is given up, and then another one is made in its place. -/
theorem remake_completes (tgt : Argument) (helper : Helper) (args : List Argument) :
    Completes (do dropValue tgt; callHelper helper args) frame
      (do return Select.dropValue frame tgt ++ (← Select.callHelper frame helper args)) :=
  (Completes.callThrough _ _).append (.callHelper _ _)

theorem wrap_completes (scratch : Int) (res : Argument) (kind : Option Primitive) :
    Completes (wrap scratch res kind) frame (wrapCode frame scratch res kind) := by
  cases kind with
  | none => exact .nothing
  | some kind => exact ((Completes.emit (storeResult scratch)).append (remake_completes _ _ _)).of_eq (by simp [wrapCode])

/-- The operands are checked before an operator is applied. -/
theorem operator_writes (kind : Flow.Operator) (res : ValueId) (opds : List ValueId) :
    Writes (operator kind res opds) frame (operatorCode frame kind res opds) := by
  have hv := valueArgument_fixed frame
  have hs := valueArguments_fixed frame
  refine .inFrame ?_
  cases kind with
  | call =>
    refine .inFrame ?_
    cases opds with
    | nil => exact .refuse _
    | cons callee args => exact .look (hv _) fun _ => .look (hv _) fun _ => .look (hs _) fun _ => .callThrough
  | indexRef =>
    refine .look (checkOperands_fixed _ _) fun _ => .look (referencePlace_fixed _ _) fun _ => .look (hs _) fun _ => ?_
    exact .of_completes ((Completes.callThrough _ _).append (.emit _))
  | _ => exact .look (checkOperands_fixed _ _) fun _ => .look (hv _) fun _ => .look (hs _) fun _ => .callThrough

/-- All is checked before a native call. -/
theorem foreignCall_writes (res : ValueId) (callee : SubroutineId) (sub : Flow.Subroutine) (args : List ValueId) :
    Writes (foreignCall cx rt.scratch res callee sub args) rt.frame (foreignCallCode cx rt res callee sub args) := by
  refine .inFrame (.look (.lookUp _) fun _ => .look (.require _ _) fun sig => .look (checkArguments_fixed _ _ _) fun _ => ?_)
  split
  · exact .refuse_bind
  · refine .look (parameterKinds_fixed _ _ _) fun kinds => .look (returnKind_fixed _ _ _) fun returned =>
      .look (.require _ _) fun scratch => .look (valueArguments_fixed _ _) fun vals => .look (valueArgument_fixed _ _) fun res => ?_
    -- everything is checked by now
    refine .of_completes (.pass (subroutineSymbol_accepts cx _) fun sym => ?_)
    have hc : Completes _ rt.frame _ := .callThrough ((List.range kinds.length).map fun place => Argument.load (scratch + 8 * (place : Nat)))
      [.zero .rax, .call (.symbol sym)]
    exact ((unwrap_completes _ _ _).append (hc.append (wrap_completes scratch res returned))).of_eq (by simp)

/-- All is checked before a call. -/
theorem call_writes (res : ValueId) (callee : SubroutineId) (args : List ValueId) :
    Writes (call cx rt.scratch res callee args) rt.frame (callCode cx rt res callee args) := by
  refine .inFrame (.look (.require _ _) fun sub => ?_)
  dsimp only
  split
  · exact foreignCall_writes _ _ _ _ _ _
  · have hc : Writes (do
        let res ← valueArgument rt.frame res
        let passed ← valueArguments rt.frame args
        let sym ← subroutineSymbol cx callee
        callDirect sym (res :: passed)) rt.frame (do
        let res ← valueArgument rt.frame res
        let passed ← valueArguments rt.frame args
        let sym ← subroutineSymbol cx callee
        return Select.callDirect rt.frame sym (res :: passed)) :=
      .look (valueArgument_fixed _ _) fun _ => .look (valueArguments_fixed _ _) fun _ =>
        .of_completes (.pass (subroutineSymbol_accepts cx _) fun _ => .callThrough _ _)
    refine .look (.lookUp _) fun sig => ?_
    cases sig with
    | none => exact hc
    | some sig => exact .look (.lookUp _) fun _ => .look (checkArguments_fixed _ _ _) fun _ => hc

/-- All is checked before a value is made. -/
theorem make_writes (tgt : Option TypeId) (res : ValueId) (args : List ValueId) :
    Writes (make cx tgt res args) frame (makeCode cx frame tgt res args) := by
  rcases tgt with _ | tgt
  · exact .refuse _
  refine .look (.lookUp _) fun name => .inFrame (.look (valueArgument_fixed _ _) fun dst => .look (.lookUp _) fun kind => ?_)
  cases kind with
  | primitive kind =>
    rcases args with _ | ⟨val, _ | _⟩
    · exact .of_completes ((Completes.callThrough _ _).append (makeDefault_completes _ _ _))
    · exact .inFrame (.look (valueArgument_fixed _ _) fun _ => .callThrough)
    · exact .refuse _
  | array => exact .look (checkNoArguments_fixed _ _) fun _ => .of_completes (remake_completes _ _ _)
  | classType =>
    refine .look (checkNoArguments_fixed _ _) fun _ => ?_
    dsimp only
    split
    · exact .refuse_bind
    · rename_i hc
      have hi := Option.ne_none_iff_isSome.mp (by simpa using hc)
      exact .of_completes (.pass (.of_selects cx fun _ => initializerSymbol_selects hi) fun _ =>
        (Completes.callThrough _ _).append (.callThrough _ _))
  | _ => exact .refuse _

/-- All is checked before a builtin is applied. -/
theorem builtin_writes (kind : Flow.Builtin) (tmpl : Option TypeId) (res : Option ValueId) (args : List ValueId) :
    Writes (builtin cx kind tmpl res args) frame (builtinCode cx frame kind tmpl res args) := by
  have hv := valueArgument_fixed frame
  cases kind with
  | print =>
    refine .inFrame (.look (valueArguments_fixed _ _) fun vals => .of_completes ?_)
    induction vals with
    | nil => exact .nothing
    | cons val rest ih => exact (Completes.callHelper _ _).append ih
  | typeOf =>
    refine .inFrame ?_
    rcases args with _ | ⟨val, _ | _⟩
    · exact .refuse _
    · exact .look (.require _ _) fun _ => .look (hv _) fun _ => .look (hv _) fun _ => .callThrough
    · exact .refuse _
  | cast =>
    refine .look (.require _ _) fun res => .inFrame ?_
    rcases tmpl with _ | tgt
    · exact .refuse _
    rcases args with _ | ⟨val, _ | _⟩
    · exact .refuse _
    · refine .look (hv _) fun _ => .look (hv _) fun _ => .look (.lookUp _) fun kind => ?_
      cases kind with
      | primitive | dynamic => exact .callThrough
      | _ => exact .look (.lookUp _) fun _ => .refuse _
    · exact .refuse _
  | make => exact .look (.require _ _) fun _ => make_writes _ _ _ _

/-- All is checked before an assignment. -/
theorem assign_writes (dst : ValueId) (src : Flow.AssignSource) : Writes (assign cx dst src) frame (assignCode cx frame dst src) := by
  refine .inFrame (.look (valueArgument_fixed _ _) fun tgt => ?_)
  cases src with
  | value => exact .look (valueArgument_fixed _ _) fun _ => .callThrough
  | literal id =>
    refine .look (.require _ _) fun lit => ?_
    generalize lit.value = val
    cases val with
    | string text => exact .of_completes (.pass (.modifyGet _) fun _ => remake_completes _ _ _)
    | _ =>
      refine .look (.require _ _) fun word => ?_
      rw [pure_bind, pure_bind]
      exact .of_completes (remake_completes _ _ _)
  | subroutine id =>
    refine .look (.require _ _) fun sub => ?_
    dsimp only
    split
    · exact .refuse_bind
    · exact .of_completes (.pass (subroutineSymbol_accepts cx _) fun _ => remake_completes _ _ _)

/-- An action emits all of its code, and where it is rejected, everything is as it was. -/
theorem action_writes (act : Flow.Action) : Writes (EmitM.action cx rt.scratch act) rt.frame (actionCode cx rt act) := by
  have hv (id) : Accepts (valueArgument rt.frame id) := .of_selects cx fun _ => valueArgument_selects False.elim
  have hn (name) : Accepts (nameArguments cx name) := .of_selects cx fun _ => nameArguments_selects False.elim
  cases act with
  | operator => exact operator_writes _ _ _
  | call => exact call_writes _ _ _ _ _
  | member res obj name =>
    exact .inFrame (.of_completes (.pass (hn name) fun _ => .pass (hv _) fun _ => .pass (hv _) fun _ =>
      .callThrough _ _))
  | memberRef res obj name =>
    exact .inFrame (.of_completes (.pass (hn name) fun _ => .pass (.of_selects cx fun _ => referencePlace_selects False.elim) fun _ =>
      .pass (hv _) fun _ => (Completes.callThrough _ _).append (.emit _)))
  | builtin => exact builtin_writes _ _ _ _ _
  | assign => exact assign_writes _ _ _

/-- What is rejected is reported, and nothing is emitted. -/
theorem actionOrError_completes (stmt : Flow.Statement) :
    Completes (actionOrError cx rt.scratch stmt) rt.frame (actionCodeOrError cx rt stmt) := by
  intro kept items
  have hw := action_writes cx rt stmt.action kept items
  unfold actionOrError actionCodeOrError
  rw [ExceptT.run_tryCatch, StateT.run_bind, ExceptT.run_tryCatch, StateT.run_bind]
  generalize (EmitM.action cx rt.scratch stmt.action).run.run _ = one, (actionCode cx rt stmt.action).run.run kept = other at hw ⊢
  cases hw with
  | fault fault => exact .fault fault
  | written new later => exact .written new later
  | refused refusal after h =>
    cases refusal with
    | rejected kind msg =>
      obtain rfl := h rfl
      have he : Accepts (addError kind stmt.location msg) := .modifyGet _
      exact Completes.pass he (fun _ => .nothing) kept items
    | _ => exact .refused _ after rfl

theorem statement_completes (num : Nat) (stmt : Flow.Statement) :
    Completes (statement cx rt num stmt) rt.frame (statementCode cx rt num stmt) := by
  have hs : Completes (statement cx rt num stmt) rt.frame _ :=
    (Completes.emit _).append (.pass (.lookUp _) fun text => (Completes.emit _).append (actionOrError_completes cx rt stmt))
  exact hs.of_eq (by simp [statementCode])

theorem statements_completes (entries : List (Flow.Statement × Nat)) : Completes (statements cx rt entries) rt.frame
      (collect (fun entry => statementCode cx rt entry.2 entry.1) entries) := by
  induction entries with
  | nil => exact .nothing
  | cons entry rest ih => exact (statement_completes _ _ _ _).append ih

/-- What a step writes is its code. -/
theorem Writes.code_eq (h : Writes step frame code) : step.code frame = code := by
  funext kept
  have hk := h kept []
  refine (run_code step frame kept).trans (?_ : _ = code.run.run kept)
  generalize step.run.run ⟨kept, [], frame⟩ = one, code.run.run kept = other at hk ⊢
  cases hk <;> rfl

theorem Completes.code_eq (h : Completes step frame code) : step.code frame = code := (Writes.of_completes h).code_eq

end

end EmitM

end

/-- The code of a block is that of its statements, one after the other, and of its end. -/
theorem blockCode_eq (cx : Context) (rt : Routine) (id : BlockId) (block : Block) (start : Nat) : blockCode cx rt id block start = do
      let statements ← collect (fun entry => statementCode cx rt entry.2 entry.1) (block.statements.zipIdx start)
      let term ← terminatorCode rt block.terminator
      return .label (blockLabel rt.symbol id) :: (statements ++ term) := by
  rw [blockCode, (EmitM.statements_completes cx rt _).code_eq]

end TagAsm.Select
