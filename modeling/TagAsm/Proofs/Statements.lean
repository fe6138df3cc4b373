import TagAsm.Proofs.Deeds
import TagAsm.Proofs.Framing
import TagAsm.Proofs.Mentions
import TagAsm.Proofs.StatementCode

/-!
# What statements become

The code of a statement is a row of deeds, and every name that it mentions is known (`Made`). A construct that makes sense but
cannot be compiled is refused, and there the statement is left out. All other refusals are about something that should have been
provided, and there is no such thing: every value has its slot, every literal is what it should be, and every subroutine has its
symbol. What is left is a native subroutine whose type is not that of a function.
-/

namespace TagAsm.Select

open Asm Abi SelectM List
open TagAsm.Flow (SubroutineId ValueId LiteralId Subroutine Body)

/-! ## Refusals -/

/-- The refusal to call something that is no function. -/
inductive NotFunction (cx : Context) : Refusal → Prop where
  | intro {id : SubroutineId} {sub : Subroutine} (hid : cx.program.subroutines[id]? = some sub)
    (hsignature : cx.program.types.signature sub.ty = .ok none) : NotFunction cx (.notCallable id)

/-- The refusal of an action that calls a native subroutine which is no function. -/
inductive NotNative (cx : Context) : Flow.Action → Refusal → Prop where
  | intro {res : ValueId} {callee : SubroutineId} {args : List ValueId} {sub : Subroutine}
    (hcallee : cx.program.subroutines[callee]? = some sub) (hforeign : sub.isForeign = true)
    (hsignature : cx.program.types.signature sub.ty = .ok none) :
    NotNative cx (.call res callee args) (.notCallable callee)

variable {context : Context} {act : Flow.Action}

theorem NotNative.notFunction {refusal : Refusal} (h : NotNative context act refusal) : NotFunction context refusal := by
  cases h with
  | intro hc _ hs => exact .intro hc hs

/-- The refusal of something that makes sense, or else, where all was provided, of an action that calls a native subroutine which is
no function. -/
def Excused (context : Context) (provided : Prop) (act : Flow.Action) (refusal : Refusal) (kept : Selection) : Prop :=
  (∃ kind message, refusal = .rejected kind message ∧ kind ≠ .missingSymbol) ∨
    refusal.isRejection = false ∧ (provided → kept.Aligned context → NotNative context act refusal)

/-- What may be refused of an action. -/
def Limits.ofAction (context : Context) (provided : Prop) (act : Flow.Action) : Limits context :=
  ⟨provided, Excused context provided act, fun hrefusal h =>
    Or.inr ⟨hrefusal, fun hprovided haligned => absurd haligned (h hprovided)⟩⟩

theorem Excused.rejected {provided : Prop} {kept : Selection} {kind : DiagnosticKind} (h : kind ≠ .missingSymbol)
    (msg : String) : Excused context provided act (.rejected kind msg) kept :=
  Or.inl ⟨kind, msg, rfl, h⟩

section

variable {context : Context} {kept later : Selection} {rt : Routine} {words : Nat}

/-! ## Arguments -/

/-- Notes keep the symbols that there are. -/
theorem Notes.within (h : Notes context kept later) : kept.symbols.Within later.symbols := by
  obtain ⟨works, -, hp⟩ := h.asks
  refine ⟨h.subroutines_eq, fun entry he => ?_⟩
  have ha : Work.initializer entry.1 entry.2 ∈ askedFor kept.symbols := mem_append_right _ (mem_map_of_mem he)
  have hl : Work.initializer entry.1 entry.2 ∈ askedFor later.symbols := hp.mem_iff.mpr (mem_append_left _ ha)
  simpa [askedFor] using hl

/-- Run on symbols that hold all of `before`, the step keeps them, and its result is as described. -/
def SelectM.Leaves (before : SymbolTable) {α : Type} (step : SelectM α) (post : α → SymbolTable → Prop) : Prop :=
  ∀ kept out after, before.Within kept.symbols → step.run.run kept = .ok (out, after) →
    kept.symbols.Within after.symbols ∧ ∀ res, out = .ok res → post res after.symbols

theorem Selects.leaves {before : SymbolTable} {α : Type} {step : SelectM α} {post : α → SymbolTable → Prop} {limits : Limits context}
    (h : ∀ kept, Selects context kept step (fun res after => post res after.symbols) limits) : Leaves before step post :=
  fun kept out after _ hrun => ⟨Notes.within (h kept out after hrun).1, (h kept out after hrun).2.1⟩

theorem Notes.subroutine? (h : Notes context kept later) {id : SubroutineId} {sym : String}
    (hs : kept.symbols.subroutine? id = some sym) : later.symbols.subroutine? id = some sym := by
  rwa [SymbolTable.subroutine?, h.subroutines_eq]

/-- An argument that can be passed: if it is the address of a value, then of one that has its slot in the frame; and what it mentions
is known. -/
structure Passable (context : Context) (frame : Frame) (kept : Selection) (arg : Argument) : Prop where
  placed : Placed frame arg
  known : AllKnown context kept arg.names

/-- A constant that mentions nothing but what is known. -/
structure Settled (context : Context) (kept : Selection) (arg : Argument) : Prop where
  constant : IsConstant arg
  known : AllKnown context kept arg.names

variable {frame : Frame} {arg : Argument}

theorem Settled.passable (h : Settled context kept arg) : Passable context frame kept arg := ⟨h.constant.isWord.placed, h.known⟩

theorem Settled.mono (h : Settled context kept arg) (hn : Notes context kept later) : Settled context later arg :=
  ⟨h.constant, h.known.mono hn⟩

theorem settled_immediate (word : Int) : Settled context kept (.immediate word) := ⟨Or.inl ⟨word, rfl⟩, .nil⟩

theorem IsValue.passable {id : ValueId} (h : IsValue frame id arg) : Passable context frame kept arg := by
  refine ⟨h.placed, ?_⟩
  obtain ⟨slot, -, rfl⟩ := h
  exact .nil

variable {args : List Argument}

theorem passable_of_isValue {ids : List ValueId} (h : Forall₂ (IsValue frame) ids args) :
    ∀ arg ∈ args, Passable context frame kept arg := by
  induction h with
  | nil => exact forall_mem_nil _
  | cons hf _ ih => exact forall_mem_cons.mpr ⟨hf.passable, ih⟩

/-! ## Code -/

/-- The code is a row of deeds, and all that it mentions is known. -/
def Made (context : Context) (rt : Routine) (words : Nat) (items : List Item) (kept : Selection) : Prop :=
  Deeds context rt words items kept.symbols ∧ CodeKnown context items kept

theorem Made.nil : Made context rt words [] kept := ⟨.nil, .nil⟩

theorem Made.append {first rest : List Item} (hf : Made context rt words first kept)
    (hrs : Made context rt words rest kept) : Made context rt words (first ++ rest) kept :=
  ⟨hf.1.append hrs.1, hf.2.append hrs.2⟩

theorem Made.mono {items : List Item} (h : Made context rt words items kept) (hn : Notes context kept later) :
    Made context rt words items later :=
  ⟨h.1.mono hn.within, h.2.mono hn⟩

theorem made_apply {operation : Operation} {receiver : Register} (hd : operation ≠ .drop) (hc : operation ≠ .copy)
    (hrc : Receives receiver args) (har : ∀ arg ∈ args, Passable context rt.frame kept arg) :
    Made context rt words (callOperation rt.frame operation args receiver) kept :=
  ⟨Deed.single (.apply hd hc hrc fun arg ha => (har arg ha).placed), codeKnown_callOperation _ _ _ fun arg ha => (har arg ha).known⟩

theorem made_help {helper : Helper} (hm : makes helper = false) (hh : helper.symbol ∈ kept.externs)
    (har : ∀ arg ∈ args, Passable context rt.frame kept arg) :
    Made context rt words (callDirect rt.frame helper.symbol args) kept :=
  ⟨Deed.single (.help hm fun arg ha => (har arg ha).placed), codeKnown_callDirect _ (fun arg ha => (har arg ha).known) (.elsewhere hh)⟩

theorem made_store {off : Int} (ho : rt.Stores words off) : Made context rt words (storeResult off) kept :=
  ⟨Deed.single (.store ho), codeKnown_storeResult off⟩

variable {id : ValueId} {tgt : Argument} (ht : IsValue rt.frame id tgt)
include ht

/-- A value is given up, and another one is made in its place. -/
theorem made_remake {sym : String} (hsy : Constructor context kept.symbols sym) (hk : Knows context kept sym)
    (hs : ∀ arg ∈ args, rt.IsSource words arg)
    (ha : ∀ arg ∈ args, AllKnown context kept arg.names) :
    Made context rt words (dropValue rt.frame tgt ++ callDirect rt.frame sym (tgt :: args)) kept := by
  refine ⟨deeds_remake ht hsy hs, CodeKnown.append (codeKnown_callOperation _ _ _ ?_) (codeKnown_callDirect _ ?_ hk)⟩
  · exact forall_mem_singleton.mpr ht.passable.known
  · exact forall_mem_cons.mpr ⟨ht.passable.known, ha⟩

/-- Another value is made by a helper, from constants. -/
theorem made_remake_helper {helper : Helper} (hm : makes helper = true) (hh : helper.symbol ∈ kept.externs)
    (har : ∀ arg ∈ args, Settled context kept arg) :
    Made context rt words (dropValue rt.frame tgt ++ callDirect rt.frame helper.symbol (tgt :: args)) kept :=
  made_remake ht (.helper hm) (.elsewhere hh) (fun arg ha => Or.inl (har arg ha).constant) fun arg ha => (har arg ha).known

end

section

variable {context : Context} {kept : Selection} {limits : Limits context} {frame : Frame}

/-! ## Steps that hand out names -/

/-- The address and the length of a string are constants, and the name of the string is known. -/
theorem stringArguments_selects (contents : String) :
    Selects context kept (stringArguments contents) (fun args after => ∀ arg ∈ args, Settled context after arg)
      limits := by
  refine .modifyGet (.single (.string contents)) (forall_mem_pair ?_ (settled_immediate _))
  exact ⟨Or.inr ⟨_, rfl⟩, .single (knows_string kept contents)⟩

/-- The call of a helper is a call of its symbol. -/
theorem callHelper_selects (frame : Frame) (helper : Helper) (args : List Argument) : Selects context kept (callHelper frame helper args)
      (fun items after => items = callDirect frame helper.symbol args ∧ helper.symbol ∈ after.externs) limits :=
  .bind (addExtern_selects _) fun _ _ _ he => .pure ⟨rfl, he⟩

/-- To make a default value is to call a helper that makes values, with constants. -/
theorem makeDefault_selects (frame : Frame) (tgt : Argument) (ty : TypeId) :
    Selects context kept (makeDefault context frame tgt ty) (fun items after => ∃ helper args, makes helper = true ∧
      helper.symbol ∈ after.externs ∧ (∀ arg ∈ args, Settled context after arg) ∧
      items = callDirect frame helper.symbol (tgt :: args)) limits := by
  refine .bind (.lookUp _) fun kind _ _ _ => ?_
  split
  · refine .bind (stringArguments_selects "") fun contents later _ hc => ?_
    intro out after hrun
    obtain ⟨hn, hrs, hrf⟩ := callHelper_selects frame _ _ out after hrun
    refine ⟨hn, fun items hi => ?_, hrf⟩
    obtain ⟨hi, hh⟩ := hrs items hi
    exact ⟨_, contents, rfl, hh, fun arg ha => (hc arg ha).mono hn, hi⟩
  · refine (callHelper_selects frame _ _).imp fun _ _ hi => ⟨_, [.immediate 0], rfl, hi.2, ?_, hi.1⟩
    exact forall_mem_singleton.mpr (settled_immediate 0)
  all_goals
    refine (callHelper_selects frame _ _).imp fun _ _ hi => ⟨_, [], rfl, hi.2, ?_, hi.1⟩
    exact forall_mem_nil _

/-! ## Values -/

theorem valueArgument_selects {id : ValueId} (h : limits.provided → (frame.slot? id).isSome = true) :
    Selects context kept (valueArgument frame id) (fun arg _ => IsValue frame id arg) limits := by
  refine (Selects.require_some rfl fun hp => by simpa using h hp).imp fun arg _ ha => ?_
  obtain ⟨slot, hs, rfl⟩ := Option.map_eq_some_iff.mp ha
  exact ⟨slot, hs, rfl⟩

theorem valueArguments_selects {ids : List ValueId} (h : limits.provided → frame.Covers ids) :
    Selects context kept (valueArguments frame ids) (fun args _ => Forall₂ (IsValue frame) ids args) limits :=
  .collect_forall₂ ids fun id hid _ => .bind (valueArgument_selects fun hp => h hp id hid) fun arg _ _ ha =>
    .pure ⟨arg, rfl, ha⟩

theorem referencePlace_selects {id : ValueId} (h : limits.provided → ∃ off, frame.slot? id = some ⟨off, true⟩) :
    Selects context kept (referencePlace frame id) (fun off _ => frame.slot? id = some ⟨off, true⟩) limits := by
  refine .bind (.require_some rfl fun hp => ?_) fun slot _ _ hs => ?_
  · obtain ⟨off, hs⟩ := h hp
    rw [hs]
    rfl
  · obtain ⟨off, byRef⟩ := slot
    cases byRef with
    | true => exact .pure hs
    | false =>
      refine .refuse (limits.lacking rfl fun hp => ?_)
      obtain ⟨other, ho⟩ := h hp
      rw [hs] at ho
      cases ho

theorem nameArguments_selects {name : LiteralId}
    (h : limits.provided → ∃ lit text, context.program.literals[name]? = some lit ∧ lit.value = .string text) :
    Selects context kept (nameArguments context name) (fun args after => ∀ arg ∈ args, Settled context after arg)
      limits := by
  unfold nameArguments
  split
  · exact stringArguments_selects _
  · rename_i ho
    refine .refuse (limits.lacking rfl fun hp => ?_)
    obtain ⟨⟨id, ty, val⟩, text, hl, rfl⟩ := h hp
    exact absurd hl (ho _ _ _)

end

section

variable {context : Context} {kept : Selection} {limits : Limits context} {provided : Prop} {act : Flow.Action} {rt : Routine}
  {words : Nat}

/-! ## Operators -/

theorem checkOperands_selects (kind : Flow.Operator) (given : Nat) :
    Selects context kept (checkOperands kind given) (fun _ _ => given = operandCount kind) (.ofAction context provided act) := by
  unfold checkOperands
  split
  · rename_i hc
    exact .pure hc
  · exact .refuse (.rejected (by decide) _)

variable (name : String)

theorem checkArguments_selects (expected given : Nat) :
    Selects context kept (checkArguments name expected given) (fun _ _ => given = expected) (.ofAction context provided act) := by
  unfold checkArguments
  split
  · rename_i hc
    exact .pure hc
  · refine .refuse (.rejected ?_ _)
    split
    · decide
    · decide

variable {res : ValueId} {opds : List ValueId}

section

variable (h : provided → rt.frame.Covers (res :: opds))
include h

theorem valueCallCode_selects : Selects context kept (valueCallCode rt.frame res opds) (Made context rt words)
      (.ofAction context provided act) := by
  cases opds with
  | nil => exact .refuse (.rejected (by decide) _)
  | cons callee args =>
    refine .bind (valueArgument_selects fun hp => h hp res (by simp)) fun res _ _ hrs => ?_
    refine .bind (valueArgument_selects fun hp => h hp callee (by simp)) fun callee _ _ hc => ?_
    refine .bind (valueArguments_selects fun hp id hid => h hp id (by simp [hid])) fun passed _ _ hps => .pure ?_
    refine made_apply (by decide) (by decide) (hc.receives_second _ _) ?_
    exact forall_mem_cons.mpr ⟨hrs.passable, forall_mem_cons.mpr ⟨hc.passable,
      forall_mem_cons.mpr ⟨(settled_immediate _).passable, passable_of_isValue hps⟩⟩⟩

theorem operatorCode_selects {kind : Flow.Operator} (hrf : provided → kind = .indexRef → ∃ off, rt.frame.slot? res = some ⟨off, true⟩) :
    Selects context kept (operatorCode rt.frame kind res opds) (Made context rt words) (.ofAction context provided act) := by
  have ho : provided → rt.frame.Covers opds := fun hp id hid => h hp id (mem_cons_of_mem _ hid)
  unfold operatorCode
  split
  · exact valueCallCode_selects h
  · refine .bind (checkOperands_selects _ _) fun _ _ _ hc => .bind (referencePlace_selects fun hp => hrf hp rfl)
      fun place _ _ hpl => .bind (valueArguments_selects ho) fun opds _ _ ho => .pure ?_
    have hrc : Receives .rdi opds := by
      cases ho with
      | nil => cases hc
      | cons hf _ => exact hf.receives_first _
    exact (made_apply (by decide) (by decide) hrc (passable_of_isValue ho)).append (made_store (Or.inl ⟨res, hpl⟩))
  · refine .bind (checkOperands_selects _ _) fun _ _ _ hc => .bind (valueArgument_selects fun hp => h hp res (by simp))
      fun res _ _ hrs => .bind (valueArguments_selects ho) fun opds _ _ ho => .pure ?_
    have hrc : Receives .rsi (res :: opds) := by
      cases ho with
      | nil => exact absurd hc (operandCount_pos kind).ne
      | cons hf _ => exact hf.receives_second _ _
    exact made_apply (ofOperator_ne_drop kind) (ofOperator_ne_copy kind) hrc (forall_mem_cons.mpr ⟨hrs.passable, passable_of_isValue ho⟩)

end

/-! ## Calls -/

/-- Takes the word out of each argument and parks it. -/
def unwrapItems (frame : Frame) (scratch : Int) : Nat → List (Argument × Primitive) → List Item
  | _, [] => []
  | place, entry :: rest =>
    callDirect frame (Helper.unwrap entry.2).symbol [entry.1] ++ storeResult (scratch + 8 * (place : Nat))
      ++ unwrapItems frame scratch (place + 1) rest

/-- Makes the result from the word that was returned. -/
def wrapItems (frame : Frame) (scratch : Int) (res : Argument) : Option Primitive → List Item
  | none => []
  | some kind => storeResult scratch ++ dropValue frame res ++ callDirect frame (Helper.make kind).symbol [res, .load scratch]

/-- The words that were parked. -/
def parkedWords (scratch : Int) (count : Nat) : List Argument :=
  (List.range count).map fun place => .load (scratch + 8 * (place : Nat))

theorem eq_load_of_mem_parkedWords {scratch : Int} {count : Nat} {arg : Argument} (h : arg ∈ parkedWords scratch count) :
    ∃ off, arg = .load off := by
  obtain ⟨place, -, rfl⟩ := mem_map.mp h
  exact ⟨_, rfl⟩

/-- The primitive as which a result comes back: none if there is no result. -/
def ReturnsAs (context : Context) (ty : TypeId) : Option Primitive → Prop
  | none => context.program.types.isVoid ty = .ok true
  | some kind => context.program.types.isVoid ty = .ok false ∧ nativeKind context ty = .ok (some kind)

/-- What the code of a native call is made from. -/
structure NativeParts where
  parameters : List TypeId
  returnType : TypeId
  kinds : List Primitive
  returned : Option Primitive
  scratch : Int
  values : List Argument
  result : Argument
  symbol : String

/-- The code of a native call. -/
def NativeParts.items (parts : NativeParts) (frame : Frame) : List Item :=
  unwrapItems frame parts.scratch 0 (parts.values.zip parts.kinds)
    ++ Item.code (frame.callCode (parkedWords parts.scratch parts.kinds.length) [.zero .rax, .call (.symbol parts.symbol)])
    ++ wrapItems frame parts.scratch parts.result parts.returned

/-- The parts are those of a call of this subroutine. -/
structure NativeParts.Of (parts : NativeParts) (context : Context) (rt : Routine) (result : ValueId) (callee : SubroutineId)
    (sub : Subroutine) (args : List ValueId) (syms : SymbolTable) : Prop where
  signature : context.program.types.signature sub.ty = .ok (some (parts.parameters, parts.returnType))
  count : args.length = parts.parameters.length
  fits : parts.parameters.length ≤ Register.arguments.length
  kinds : List.Forall₂ (fun ty kind => nativeKind context ty = .ok (some kind)) parts.parameters parts.kinds
  returned : ReturnsAs context parts.returnType parts.returned
  scratch : rt.scratch = some parts.scratch
  values : List.Forall₂ (IsValue rt.frame) args parts.values
  result : IsValue rt.frame result parts.result
  symbol : syms.subroutine? callee = some parts.symbol

/-- The code of a call: that of a native one, or a call of the symbol with the address of the result and those of the arguments. -/
inductive CallCode (context : Context) (rt : Routine) (res : ValueId) (callee : SubroutineId) (args : List ValueId)
    (syms : SymbolTable) : List Item → Prop where
  | native {sub : Subroutine} {parts : NativeParts} (hcallee : context.program.subroutines[callee]? = some sub)
    (hforeign : sub.isForeign = true) (hparts : parts.Of context rt res callee sub args syms) :
    CallCode context rt res callee args syms (parts.items rt.frame)
  | direct {sub : Subroutine} {passed : List Argument} {sym : String}
    (hcallee : context.program.subroutines[callee]? = some sub) (hforeign : sub.isForeign = false)
    (hpassed : List.Forall₂ (IsValue rt.frame) (res :: args) passed) (hsymbol : syms.subroutine? callee = some sym) :
    CallCode context rt res callee args syms (callDirect rt.frame sym passed)

theorem parameterKinds_selects (params : List TypeId) : Selects context kept (parameterKinds context name params) (fun kinds _ =>
      Forall₂ (fun ty kind => nativeKind context ty = .ok (some kind)) params kinds) (.ofAction context provided act) := by
  refine .collect_forall₂ params fun ty _ _ => .bind (.lookUp _) fun kind _ _ hk => ?_
  cases kind with
  | some kind => exact .pure ⟨kind, rfl, hk⟩
  | none => exact .bind (.lookUp _) fun _ _ _ _ => .refuse (.rejected (by decide) _)

theorem returnKind_selects (ty : TypeId) :
    Selects context kept (returnKind context name ty) (fun returned _ => ReturnsAs context ty returned)
      (.ofAction context provided act) := by
  refine .bind (.lookUp _) fun isVoid _ _ hv => ?_
  cases isVoid with
  | true => exact .pure hv
  | false =>
    refine .bind (.lookUp _) fun kind _ _ hk => ?_
    cases kind with
    | some kind => exact .pure ⟨hv, hk⟩
    | none => exact .bind (.lookUp _) fun _ _ _ _ => .refuse (.rejected (by decide) _)

theorem unwrapCode_selects (frame : Frame) (scratch : Int) (place : Nat) (entries : List (Argument × Primitive))
    (h : ∀ entry ∈ entries, ∀ kept, Passable context frame kept entry.1) :
    Selects context kept (unwrapCode frame scratch place entries)
      (fun items after => items = unwrapItems frame scratch place entries ∧ CodeKnown context items after) limits := by
  induction entries generalizing kept place with
  | nil => exact .pure ⟨rfl, .nil⟩
  | cons entry rest ih =>
    obtain ⟨he, hrs⟩ := forall_mem_cons.mp h
    refine .bind (callHelper_selects frame _ _) fun unwrap later _ ⟨hu, hh⟩ => ?_
    refine .bind (ih (place + 1) hrs) fun others _ hn ⟨ho, hk⟩ => .pure ⟨by rw [hu, ho]; rfl, ?_⟩
    have hc : CodeKnown context unwrap later :=
      hu ▸ codeKnown_callDirect frame (forall_mem_singleton.mpr (he later).known) (.elsewhere hh)
    exact ((hc.mono hn).append (codeKnown_storeResult _)).append hk

variable {id : ValueId}

theorem wrapCode_selects (frame : Frame) (scratch : Int) {res : Argument} (hrs : IsValue frame id res) (kind : Option Primitive) :
    Selects context kept (wrapCode frame scratch res kind)
      (fun items after => items = wrapItems frame scratch res kind ∧ CodeKnown context items after) limits := by
  cases kind with
  | none => exact .pure ⟨rfl, .nil⟩
  | some kind =>
    refine .bind (callHelper_selects frame _ _) fun make later _ ⟨hm, hh⟩ => .pure ⟨by rw [hm]; rfl, ?_⟩
    have hn : ∀ arg ∈ [res, .load scratch], AllKnown context later arg.names := forall_mem_pair hrs.passable.known .nil
    have hc : CodeKnown context make later := hm ▸ codeKnown_callDirect frame hn (.elsewhere hh)
    refine ((codeKnown_storeResult _).append (codeKnown_callOperation _ _ _ ?_)).append hc
    exact forall_mem_singleton.mpr hrs.passable.known

variable {callee : SubroutineId} {args : List ValueId}

/-- A native call that is accepted has the code of its parts. -/
theorem foreignCallCode_selects {sub : Subroutine} (hc : context.program.subroutines[callee]? = some sub)
    (hf : sub.isForeign = true) (h : provided → rt.frame.Covers (res :: args))
    (hs : provided → rt.scratch.isSome = true) :
    Selects context kept (foreignCallCode context rt res callee sub args) (fun items after =>
      CallCode context rt res callee args after.symbols items ∧ CodeKnown context items after)
      (.ofAction context provided (.call res callee args)) := by
  refine .bind (.lookUp _) fun sig _ _ hsg => ?_
  refine .bind (.require fun hno => Or.inr ⟨rfl, fun _ _ => .intro hc hf (hno ▸ hsg)⟩) fun found _ _ hfn => ?_
  obtain ⟨parameters, ret⟩ := found
  subst hfn
  refine .bind (checkArguments_selects _ _ _) fun _ _ _ hcn => ?_
  split
  · exact .refuse_bind (.rejected (by decide) _)
  · rename_i hft
    refine .bind (parameterKinds_selects _ _) fun kinds _ _ hkn => .bind (returnKind_selects _ _) fun returned _ _ hrt => ?_
    refine .bind (.require_some rfl hs) fun scratch _ _ hs => ?_
    refine .bind (valueArguments_selects fun hp id hid => h hp id (by simp [hid])) fun vals _ _ hv => ?_
    refine .bind (valueArgument_selects fun hp => h hp res (by simp)) fun target _ _ ht => ?_
    refine .bind (subroutineSymbol_selects fun _ => (List.getElem?_eq_some_iff.mp hc).1) fun symbol _ _ ⟨hsy, hkw⟩ => ?_
    refine .bind (unwrapCode_selects rt.frame scratch 0 _ fun entry he _ =>
      passable_of_isValue hv entry.1 (of_mem_zip he).1) fun unwrap _ hn₁ ⟨hu, hk₁⟩ => ?_
    refine .bind (wrapCode_selects rt.frame scratch ht returned) fun wrap last hn₂ ⟨hwr, hk₂⟩ => .pure ⟨?_, ?_⟩
    · have hpr : NativeParts.Of ⟨parameters, ret, kinds, returned, scratch, vals, target, symbol⟩ context rt res
          callee sub args last.symbols :=
        ⟨hsg, hcn, Nat.le_of_not_lt hft, hkn, hrt, hs, hv, ht, Notes.subroutine? (hn₁.trans hn₂) hsy⟩
      rw [hu, hwr]
      exact .native hc hf hpr
    · -- the words are loaded from the frame, so the call mentions its target only
      have hl : ∀ arg ∈ parkedWords scratch kinds.length, AllKnown context last arg.names := by
        intro arg ha
        obtain ⟨off, rfl⟩ := eq_load_of_mem_parkedWords ha
        exact .nil
      have hall := (allKnown_arguments hl).append (.single (Notes.knows (hn₁.trans hn₂) hkw))
      exact ((hk₁.mono hn₂).append (hall.subset (names_callCode rt.frame _ _))).append hk₂

theorem callCode_selects (hcl : provided → callee < context.program.subroutines.length) (h : provided → rt.frame.Covers (res :: args))
    (hs : provided → ∀ sub, context.program.subroutines[callee]? = some sub → sub.isForeign = true → rt.scratch.isSome = true) :
    Selects context kept (callCode context rt res callee args) (fun items after =>
      CallCode context rt res callee args after.symbols items ∧ CodeKnown context items after)
      (.ofAction context provided (.call res callee args)) := by
  refine .bind (.require_some rfl fun hp => by simpa using hcl hp) fun sub _ _ hsb => ?_
  split
  · rename_i hf
    exact foreignCallCode_selects hsb hf h fun hp => hs hp sub hsb hf
  · rename_i hf
    have hc : ∀ kept, Selects context kept (do
        let res ← valueArgument rt.frame res
        let passed ← valueArguments rt.frame args
        let sym ← subroutineSymbol context callee
        return callDirect rt.frame sym (res :: passed)) (fun items after =>
          CallCode context rt res callee args after.symbols items ∧ CodeKnown context items after)
        (.ofAction context provided (.call res callee args)) := by
      intro kept
      refine .bind (valueArgument_selects fun hp => h hp res (by simp)) fun addr _ _ ha => ?_
      refine .bind (valueArguments_selects fun hp id hid => h hp id (by simp [hid])) fun passed _ _ hps => ?_
      refine .bind (subroutineSymbol_selects hcl) fun sym _ _ ⟨hsy, hk⟩ => ?_
      have hb : Forall₂ (IsValue rt.frame) (res :: args) (addr :: passed) := .cons ha hps
      exact .pure ⟨.direct hsb (Bool.not_eq_true _ ▸ hf) hb hsy,
        codeKnown_callDirect _ (fun arg har => (passable_of_isValue hb arg har).known) hk⟩
    refine .bind (.lookUp _) fun sig now _ _ => ?_
    split
    · exact .bind (.lookUp _) fun _ _ _ _ => .bind (checkArguments_selects _ _ _) fun _ later _ _ => hc later
    · exact hc now

variable {syms : SymbolTable}

theorem deeds_unwrapItems {scratch : Int} (hs : rt.scratch = some scratch) (place : Nat)
    (entries : List (Argument × Primitive)) (he : ∀ entry ∈ entries, Placed rt.frame entry.1)
    (hw : place + entries.length ≤ words) :
    Deeds context rt words (unwrapItems rt.frame scratch place entries) syms := by
  induction entries generalizing place with
  | nil => exact .nil
  | cons entry rest ih =>
    obtain ⟨hen, hrs⟩ := forall_mem_cons.mp he
    rw [length_cons] at hw
    have hc : Deeds context rt words (callDirect rt.frame (Helper.unwrap entry.2).symbol [entry.1]) syms :=
      Deed.single (.help rfl (forall_mem_singleton.mpr hen))
    have hsr : Deeds context rt words (storeResult (scratch + 8 * (place : Nat))) syms :=
      Deed.single (.store (Or.inr ⟨scratch, place, hs, by omega, rfl⟩))
    exact (hc.append hsr).append (ih (place + 1) hrs (by omega))

theorem deeds_wrapItems {scratch : Int} (hs : rt.scratch = some scratch) (hw : 0 < words) {res : Argument}
    (hrs : IsValue rt.frame id res) (kind : Option Primitive) :
    Deeds context rt words (wrapItems rt.frame scratch res kind) syms := by
  cases kind with
  | none => exact .nil
  | some kind =>
    have hf : rt.IsScratch words scratch := ⟨scratch, 0, hs, hw, by simp⟩
    have hsr : Deeds context rt words (storeResult scratch) syms := Deed.single (.store (Or.inr hf))
    exact hsr.append (deeds_remake hrs (.helper rfl) (forall_mem_singleton.mpr (Or.inr ⟨scratch, rfl, hf⟩)))

theorem CallCode.deeds {items : List Item} (h : CallCode context rt res callee args syms items) (loc : Location)
    (hw : ∀ n, nativeWords context.program ⟨.call res callee args, loc⟩ = .ok n → n ≤ words) :
    Deeds context rt words items syms := by
  cases h with
  | direct _ _ hps hs => exact Deed.single (.invoke hs (placed_of_isValue hps))
  | native hc hf hp =>
    -- what the call needs is set aside for it
    have hrm := hw _ (by simp only [nativeWords, hc, hf, if_true, hp.signature]; rfl)
    have hcn := hp.kinds.length_eq
    refine Deeds.append (Deeds.append (deeds_unwrapItems hp.scratch 0 _ ?_ ?_) (Deed.single (.native hp.symbol ?_)))
      (deeds_wrapItems hp.scratch (by omega) hp.result _)
    · exact fun entry he => placed_of_isValue hp.values entry.1 (of_mem_zip he).1
    · rw [length_zip]
      omega
    · intro arg ha
      obtain ⟨off, rfl⟩ := eq_load_of_mem_parkedWords ha
      exact fun _ => Argument.noConfusion

/-! ## Builtins -/

theorem printCode_selects (h : limits.provided → rt.frame.Covers args) :
    Selects context kept (printCode rt.frame args) (Made context rt words) limits := by
  refine .bind (valueArguments_selects h) fun vals _ _ hvs => .collect (fun _ => .nil)
    (fun _ _ _ _ hn hf hrs => (hf.mono hn).append hrs) vals fun val hv later _ => ?_
  refine (callHelper_selects rt.frame _ _).imp fun items after ⟨hi, hh⟩ => ?_
  rw [hi]
  exact made_help rfl hh (forall_mem_singleton.mpr (passable_of_isValue hvs val hv))

theorem typeOfCode_selects {res : Option ValueId} (hrs : provided → res.isSome = true)
    (h : provided → rt.frame.Covers (res.toList ++ args)) :
    Selects context kept (typeOfCode rt.frame res args) (Made context rt words) (.ofAction context provided act) := by
  unfold typeOfCode
  split
  · refine .bind (.require_some rfl hrs) fun place _ _ hpl => ?_
    subst hpl
    refine .bind (valueArgument_selects fun hp => h hp place (by simp)) fun res _ _ hrs => ?_
    refine .bind (valueArgument_selects fun hp => h hp _ (by simp)) fun val _ _ hv => .pure ?_
    exact made_apply (by decide) (by decide) (hv.receives_second _ _) (forall_mem_pair hrs.passable hv.passable)
  · exact .refuse (.rejected (by decide) _)

/-- The arguments of a conversion: where to, what from, and to which type. -/
theorem passable_cast {frame : Frame} {other : ValueId} {res val : Argument} (hrs : IsValue frame id res)
    (hv : IsValue frame other val) (tag : Int) :
    ∀ arg ∈ [res, val, .immediate tag], Passable context frame kept arg :=
  forall_mem_cons.mpr ⟨hrs.passable, forall_mem_cons.mpr ⟨hv.passable, forall_mem_singleton.mpr (settled_immediate tag).passable⟩⟩

theorem castCode_selects (tgt : Option TypeId) (h : provided → rt.frame.Covers (res :: args)) :
    Selects context kept (castCode context rt.frame tgt res args) (Made context rt words) (.ofAction context provided act) := by
  unfold castCode
  split
  · split
    · refine .bind (valueArgument_selects fun hp => h hp res (by simp)) fun res _ _ hrs => ?_
      refine .bind (valueArgument_selects fun hp => h hp _ (by simp)) fun val _ _ hv => .bind (.lookUp _) fun kind _ _ _ => ?_
      split
      · exact .pure (made_apply (by decide) (by decide) (hv.receives_second _ _) (passable_cast hrs hv _))
      · exact .pure (made_apply (by decide) (by decide) (hv.receives_second _ _) (forall_mem_pair hrs.passable hv.passable))
      · exact .bind (.lookUp _) fun _ _ _ _ => .refuse (.rejected (by decide) _)
    · exact .refuse (.rejected (by decide) _)
  · exact .refuse (.rejected (by decide) _)

theorem checkNoArguments_selects (args : List ValueId) :
    Selects context kept (checkNoArguments name args) (fun _ _ => True) (.ofAction context provided act) := by
  unfold checkNoArguments
  split
  · exact .pure trivial
  · exact .refuse (.rejected (by decide) _)

theorem makePrimitiveCode_selects (tgt : TypeId) (kind : Primitive) (name : String) {dst : Argument}
    (hd : IsValue rt.frame id dst) (h : provided → rt.frame.Covers args) :
    Selects context kept (makePrimitiveCode context rt.frame tgt kind name dst args)
      (Made context rt words) (.ofAction context provided act) := by
  unfold makePrimitiveCode
  split
  · refine .bind (makeDefault_selects _ _ _) fun make _ _ ⟨helper, constants, hms, hh, hc, hm⟩ => .pure ?_
    rw [hm]
    exact made_remake_helper hd hms hh hc
  · refine .bind (valueArgument_selects fun hp => h hp _ (by simp)) fun val _ _ hv => .pure ?_
    exact made_apply (by decide) (by decide) (hv.receives_second _ _) (passable_cast hd hv _)
  · exact .refuse (.rejected (by decide) _)

theorem makeCode_selects (tgt : Option TypeId) (h : provided → rt.frame.Covers (res :: args)) :
    Selects context kept (makeCode context rt.frame tgt res args) (Made context rt words) (.ofAction context provided act) := by
  unfold makeCode
  split
  · rename_i tgt
    refine .bind (.lookUp _) fun name _ _ _ => .bind (valueArgument_selects fun hp => h hp res (by simp))
      fun dst _ _ hd => .bind (.lookUp _) fun kind _ _ _ => ?_
    split
    · exact makePrimitiveCode_selects tgt _ name hd fun hp id hid => h hp id (mem_cons_of_mem _ hid)
    · refine .bind (checkNoArguments_selects name args) fun _ _ _ _ => ?_
      refine .bind (callHelper_selects _ _ _) fun make _ _ ⟨hm, hh⟩ => .pure ?_
      rw [hm]
      exact made_remake_helper hd rfl hh (forall_mem_nil _)
    · refine .bind (checkNoArguments_selects name args) fun _ _ _ _ => ?_
      split
      · exact .refuse_bind (.rejected (by decide) _)
      · rename_i hc
        have hs : (context.program.classOfType? tgt).isSome = true := Option.isSome_iff_ne_none.mpr (by simpa using hc)
        refine .bind (initializerSymbol_selects hs) fun sym _ _ hsy => .pure ?_
        exact made_remake hd (.initializer hs hsy) (.initializer hsy) (forall_mem_nil _) (forall_mem_nil _)
    all_goals exact .refuse (.rejected (by decide) _)
  · exact .refuse (.rejected (by decide) _)

theorem builtinCode_selects {kind : Flow.Builtin} (tmpl : Option TypeId) {res : Option ValueId}
    (h : provided → rt.frame.Covers (res.toList ++ args))
    (hrs : provided → kind ≠ .print → res.isSome = true) :
    Selects context kept (builtinCode context rt.frame kind tmpl res args) (Made context rt words) (.ofAction context provided act) := by
  unfold builtinCode
  split
  · exact printCode_selects fun hp val hv => h hp val (mem_append_right _ hv)
  · exact typeOfCode_selects (fun hp => hrs hp (by decide)) h
  · exact .bind (.require_some rfl fun hp => hrs hp (by decide)) fun found _ _ hf => castCode_selects tmpl (by rwa [hf] at h)
  · exact .bind (.require_some rfl fun hp => hrs hp (by decide)) fun found _ _ hf => makeCode_selects tmpl (by rwa [hf] at h)

/-! ## Assignments and members -/

/-- Every literal but a string is made from a word. -/
theorem isSome_raw? {val : LiteralValue} (h : ∀ contents, val ≠ .string contents) : val.raw?.isSome = true := by
  cases val with
  | string contents => exact absurd rfl (h contents)
  | _ => rfl

variable {dst : ValueId} {tgt : Argument}

theorem assignLiteralCode_selects (ht : IsValue rt.frame dst tgt) {id : LiteralId}
    (h : limits.provided → id < context.program.literals.length) :
    Selects context kept (assignLiteralCode context rt.frame tgt id) (Made context rt words) limits := by
  have hm : ∀ kept (kind : Primitive) (contents : List Argument), (∀ arg ∈ contents, Settled context kept arg) → Selects context kept (do
        let make ← callHelper rt.frame (.make kind) (tgt :: contents)
        return dropValue rt.frame tgt ++ make) (Made context rt words) limits := by
    intro kept kind contents hc
    refine .bind (callHelper_selects _ _ _) fun make _ hn ⟨hm, hh⟩ => .pure ?_
    rw [hm]
    exact made_remake_helper ht rfl hh fun arg ha => (hc arg ha).mono hn
  refine .bind (.require_some rfl fun hp => by simpa using h hp) fun lit _ _ _ => ?_
  split
  · exact .bind (stringArguments_selects _) fun contents later _ hc => hm later _ contents hc
  · rename_i hv
    refine .bind (.require_some rfl fun _ => isSome_raw? hv) fun word _ _ _ => ?_
    exact .bind (.pure rfl) fun contents later _ (hc : contents = [.immediate word]) =>
      hm later _ contents (hc ▸ forall_mem_singleton.mpr (settled_immediate word))

theorem assignSubroutineCode_selects (ht : IsValue rt.frame dst tgt) {id : SubroutineId}
    (h : provided → id < context.program.subroutines.length) :
    Selects context kept (assignSubroutineCode context rt.frame tgt id) (Made context rt words) (.ofAction context provided act) := by
  refine .bind (.require_some rfl fun hp => by simpa using h hp) fun sub _ _ _ => ?_
  split
  · exact .refuse_bind (.rejected (by decide) _)
  · refine .bind (subroutineSymbol_selects h) fun sym _ _ ⟨_, hk⟩ => ?_
    refine .bind (callHelper_selects _ _ _) fun make _ hn ⟨hm, hh⟩ => .pure ?_
    rw [hm]
    exact made_remake_helper ht rfl hh (forall_mem_singleton.mpr ⟨Or.inr ⟨sym, rfl⟩, .single (hn.knows hk)⟩)

/-! ## Statements -/

/-- The subroutine that an action refers to. -/
def subroutineOf? : Flow.Action → Option SubroutineId
  | .call _ callee _ | .assign _ (.subroutine callee) => some callee
  | _ => none

/-- What is shown of an action names the subroutine that it refers to, which therefore exists. -/
theorem lt_of_actionText {prog : Flow.Program} {body : Body} {colored : Bool} {act : Flow.Action} {text : String}
    (h : prog.actionText body colored act = .ok text) {id : SubroutineId} (hid : subroutineOf? act = some id) :
    id < prog.subroutines.length := by
  have hn : ∀ shown, prog.subroutineText colored id = .ok shown → id < prog.subroutines.length := by
    intro shown hs
    obtain ⟨name, hn, -⟩ := of_bind_eq_ok hs
    obtain ⟨sub, hsb, -⟩ := of_bind_eq_ok hn
    exact (List.getElem?_eq_some_iff.mp (Table.fetch_eq_ok_iff.mp hsb)).1
  unfold subroutineOf? at hid
  split at hid
  · cases hid
    obtain ⟨_, -, h⟩ := of_bind_eq_ok h
    obtain ⟨shown, hs, -⟩ := of_bind_eq_ok h
    exact hn shown hs
  · cases hid
    obtain ⟨shown, hs, -⟩ := of_bind_eq_ok h
    exact hn shown hs
  · cases hid

/-- What a subroutine whose blocks are selected provides for its statements. -/
structure Routine.Ready (context : Context) (rt : Routine) : Prop where
  sound : rt.body.Sound context.program.literals
  placed : rt.body.Placed
  frame : FrameReady rt.body rt.frame
  scratch : ∀ statement ∈ bodyStatements rt.body, ∀ res callee args sub,
    statement.action = .call res callee args → context.program.subroutines[callee]? = some sub →
      sub.isForeign = true → rt.scratch.isSome = true

section

variable {stmt : Flow.Statement} (hr : provided → rt.Ready context)
  (hst : provided → stmt ∈ bodyStatements rt.body)
  (hsb : provided → ∀ id, subroutineOf? stmt.action = some id → id < context.program.subroutines.length)
  (hw : ∀ n, nativeWords context.program stmt = .ok n → n ≤ words)
include hr hst hsb hw

/-- What a statement does is a row of deeds. -/
theorem actionCode_selects : Selects context kept (actionCode context rt stmt.action) (Made context rt words)
      (.ofAction context provided stmt.action) := by
  have hsn : provided → stmt.Sound rt.body.values.length context.program.literals := by
    intro hp
    obtain ⟨id, block, hb, hs⟩ := mem_bodyStatements.mp (hst hp)
    exact (hr hp).sound.statements id block hb stmt hs
  have hsl : provided → rt.frame.Covers stmt.values := fun hp val hv => (hr hp).frame.slots val ((hsn hp).values_lt val hv)
  have hrf : provided → ∀ val, referenceResult? stmt = some val → ∃ off, rt.frame.slot? val = some ⟨off, true⟩ :=
    fun hp val hv => (hr hp).frame.references val (mem_filterMap.mpr ⟨stmt, hst hp, hv⟩)
  have hsc := fun hp => (hr hp).scratch stmt (hst hp)
  have hrs : provided → ∀ kind tmpl res args, stmt.action = .builtin kind tmpl res args → kind ≠ .print → res.isSome = true := by
    intro hp
    obtain ⟨id, block, hb, hs⟩ := mem_bodyStatements.mp (hst hp)
    exact ((hr hp).placed id block hb stmt hs).result_isSome
  obtain ⟨act, loc⟩ := stmt
  cases act with
  | operator kind res args =>
    refine operatorCode_selects hsl fun hp hk => hrf hp res ?_
    subst hk
    rfl
  | call res callee args =>
    refine (callCode_selects (fun hp => hsb hp callee rfl) hsl fun hp sub hc hf =>
      hsc hp res callee args sub rfl hc hf).imp fun items after hi => ?_
    exact ⟨hi.1.deeds loc hw, hi.2⟩
  | member res obj name =>
    refine .bind (nameArguments_selects fun hp => (hsn hp).name_string name rfl) fun name _ _ hnm => ?_
    refine .bind (valueArgument_selects fun hp => hsl hp res (by simp [Flow.Statement.values])) fun res _ hn₁ hrs => ?_
    refine .bind (valueArgument_selects fun hp => hsl hp obj (by simp [Flow.Statement.values])) fun obj _ hn₂ ho =>
      .pure (made_apply (by decide) (by decide) (ho.receives_second _ _) ?_)
    exact forall_mem_cons.mpr ⟨hrs.passable, forall_mem_cons.mpr ⟨ho.passable,
      fun arg ha => ((hnm arg ha).mono (hn₁.trans hn₂)).passable⟩⟩
  | memberRef res obj name =>
    refine .bind (nameArguments_selects fun hp => (hsn hp).name_string name rfl) fun name _ _ hnm => ?_
    refine .bind (referencePlace_selects fun hp => hrf hp res rfl) fun place _ hn₁ hpl => ?_
    refine .bind (valueArgument_selects fun hp => hsl hp obj (by simp [Flow.Statement.values])) fun obj _ hn₂ ho =>
      .pure (Made.append (made_apply (by decide) (by decide) (ho.receives_first _) ?_) (made_store (Or.inl ⟨res, hpl⟩)))
    exact forall_mem_cons.mpr ⟨ho.passable, fun arg ha => ((hnm arg ha).mono (hn₁.trans hn₂)).passable⟩
  | builtin kind tmpl res args =>
    exact builtinCode_selects tmpl hsl fun hp => hrs hp kind tmpl res args rfl
  | assign dst src =>
    refine .bind (valueArgument_selects fun hp => hsl hp dst ?_) fun tgt _ _ ht => ?_
    · cases src <;> simp [Flow.Statement.values]
    cases src with
    | value id =>
      refine .bind (valueArgument_selects fun hp => hsl hp id (by simp [Flow.Statement.values])) fun src _ _ hsr =>
        .pure (made_apply (by decide) (by decide) (hsr.receives_second _ _) ?_)
      exact forall_mem_pair ht.passable hsr.passable
    | literal id =>
      exact assignLiteralCode_selects ht fun hp => (hsn hp).literals_lt id (by simp [Flow.Statement.literals])
    | subroutine id => exact assignSubroutineCode_selects ht fun hp => hsb hp id rfl

/-- A statement that cannot be compiled is reported, so only what is native and no function is still refused. -/
theorem actionCodeOrError_selects : Selects context kept (actionCodeOrError context rt stmt) (Made context rt words)
      (.accepting provided (NotNative context stmt.action)) := by
  refine .tryCatch (actionCode_selects hr hst hsb hw) fun refusal later _ hrf => ?_
  cases refusal with
  | rejected kind msg =>
    rcases hrf with ⟨_, _, heq, hk⟩ | ⟨ho, -⟩
    · obtain ⟨rfl, rfl⟩ := Refusal.rejected.inj heq
      exact .change_bind (.single (.error _ _ hk)) (.pure .nil)
    · cases ho
  | _ =>
    rcases hrf with ⟨_, _, heq, -⟩ | hrs
    · cases heq
    · exact .refuse hrs

end

/-- What is said of the code of a statement does not need that anything was provided. -/
theorem actionCodeOrError_steps (context : Context) (rt : Routine) (stmt : Flow.Statement) :
    Yields (actionCodeOrError context rt stmt) Steps := by
  obtain ⟨words, hw⟩ : ∃ words, ∀ n, nativeWords context.program stmt = .ok n → n ≤ words := by
    cases nativeWords context.program stmt with
    | error fault => exact ⟨0, fun _ h => by cases h⟩
    | ok words => exact ⟨words, fun _ h => (Except.ok.inj h).ge⟩
  have hm : ∀ kept, Selects context kept (actionCodeOrError context rt stmt) (Made context rt words)
      (.accepting False (NotNative context stmt.action)) :=
    fun kept => actionCodeOrError_selects False.elim False.elim False.elim hw
  refine Selects.yields fun kept => (hm kept).imp fun items _ hi => ?_
  obtain ⟨⟨deeds, rfl, -⟩, -⟩ := hi
  exact steps_piecesCode _ _

end

end TagAsm.Select
