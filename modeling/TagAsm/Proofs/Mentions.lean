import TagAsm.Proofs.Keeping
import TagAsm.Proofs.StraightCode

/-!
# What code mentions

An instruction mentions a name where it goes there or takes its address. Code is made from calls, whose names are those of
their targets and arguments, so all that matters is where those come from: each is handed out by a step of selection that notes
it (`Selects`).
-/

namespace TagAsm.Asm

/-- The name that an operand mentions. -/
def Operand.name? : Operand → Option String
  | .symbol name | .relative name => some name
  | _ => none

/-- The names that an instruction mentions. -/
def Instruction.names (op : Instruction) : List String := op.operands.filterMap Operand.name?

/-- The names that a line of a section mentions. -/
def Item.names : Item → List String
  | .instruction op => op.names
  | .data (.quadSymbol symbol) => [symbol]
  | _ => []

/-- The names that the lines of a section mention. -/
def codeNames (items : List Item) : List String := items.flatMap Item.names

/-- The name that an argument of a call mentions. -/
def Argument.names : Argument → List String
  | .symbol name => [name]
  | _ => []

/-- The names that the arguments of a call mention. -/
def argumentNames (args : List Argument) : List String := args.flatMap Argument.names

@[simp] theorem codeNames_nil : codeNames [] = [] := rfl

@[simp] theorem codeNames_append (first rest : List Item) : codeNames (first ++ rest) = codeNames first ++ codeNames rest :=
  List.flatMap_append ..

theorem codeNames_code (ops : List Instruction) : codeNames (Item.code ops) = ops.flatMap Instruction.names := by
  rw [codeNames, Item.code, List.flatMap_map]
  rfl

/-- To bring an argument into a register mentions what the argument mentions. -/
theorem names_loadInto (arg : Argument) (reg : Register) : (arg.loadInto reg).names = arg.names := by
  cases arg with
  | value slot =>
    obtain ⟨off, byRef⟩ := slot
    cases byRef <;> rfl
  | _ => rfl

end TagAsm.Asm

namespace TagAsm.Select

open Asm Abi SelectM List SymbolTable
open TagAsm.Flow (SubroutineId Subroutine)

/-- A call mentions what its arguments and its transfer mention. -/
theorem names_callCode (frame : Frame) (args : List Argument) (transfer : List Instruction) :
    codeNames (Item.code (frame.callCode args transfer)) ⊆ argumentNames args ++ transfer.flatMap Instruction.names := by
  have he : ∀ op ∈ frame.callCode args transfer, op.names ⊆ argumentNames args ++ transfer.flatMap Instruction.names := by
    refine forall_mem_callCode frame args (fun arg ha reg _ => ?_) (fun _ => nil_subset _)
      (nil_subset _) (fun _ => nil_subset _) fun op hop => ?_
    · rw [names_loadInto]
      exact subset_append_of_subset_left _ fun name hn => mem_flatMap.mpr ⟨arg, ha, hn⟩
    · exact subset_append_of_subset_right _ fun name hn => mem_flatMap.mpr ⟨op, hop, hn⟩
  intro name hn
  rw [codeNames_code] at hn
  obtain ⟨op, hop, hn⟩ := mem_flatMap.mp hn
  exact he op hop hn

/-! ## Steps that note what they mention -/

/-- All these names are known. -/
def AllKnown (cx : Context) (kept : Selection) (names : List String) : Prop := ∀ name ∈ names, Knows cx kept name

section

variable {cx : Context} {kept later : Selection}

theorem AllKnown.nil : AllKnown cx kept [] := forall_mem_nil _

theorem AllKnown.append {first rest : List String} (hf : AllKnown cx kept first) (hr : AllKnown cx kept rest) :
    AllKnown cx kept (first ++ rest) :=
  forall_mem_append.mpr ⟨hf, hr⟩

theorem AllKnown.single {name : String} (h : Knows cx kept name) : AllKnown cx kept [name] := forall_mem_singleton.mpr h

variable {names : List String}

theorem AllKnown.subset {more : List String} (h : AllKnown cx kept more) (hs : names ⊆ more) : AllKnown cx kept names :=
  fun name hn => h name (hs hn)

theorem AllKnown.mono (h : AllKnown cx kept names) (hnt : Notes cx kept later) : AllKnown cx later names :=
  fun name hn => hnt.knows (h name hn)

/-- Names that there are none of are known. -/
theorem AllKnown.of_eq_nil (h : names = []) : AllKnown cx kept names := h ▸ .nil

/-- All names that the code mentions are known. -/
def CodeKnown (cx : Context) (items : List Item) (kept : Selection) : Prop := AllKnown cx kept (codeNames items)

theorem CodeKnown.nil : CodeKnown cx [] kept := AllKnown.nil

theorem CodeKnown.append {first rest : List Item} (hf : CodeKnown cx first kept) (hr : CodeKnown cx rest kept) :
    CodeKnown cx (first ++ rest) kept := by
  rw [CodeKnown, codeNames_append]
  exact AllKnown.append hf hr

theorem CodeKnown.mono {items : List Item} (h : CodeKnown cx items kept) (hn : Notes cx kept later) : CodeKnown cx items later :=
  AllKnown.mono h hn

variable {args : List Argument}

/-- All that the arguments mention is known. -/
theorem allKnown_arguments (h : ∀ arg ∈ args, AllKnown cx kept arg.names) : AllKnown cx kept (argumentNames args) := by
  intro name hn
  obtain ⟨arg, ha, hn⟩ := mem_flatMap.mp hn
  exact h arg ha name hn

theorem codeKnown_callDirect (frame : Frame) {sym : String} (ha : ∀ arg ∈ args, AllKnown cx kept arg.names) (hs : Knows cx kept sym) :
    CodeKnown cx (callDirect frame sym args) kept :=
  ((allKnown_arguments ha).append (.single hs)).subset (names_callCode frame args [.call (.symbol sym)])

/-- A call through a table of operations mentions only what its arguments mention. -/
theorem codeKnown_callOperation (frame : Frame) (operation : Operation) (receiver : Register)
    (ha : ∀ arg ∈ args, AllKnown cx kept arg.names) :
    CodeKnown cx (callOperation frame operation args receiver) kept := by
  have ht : (operationTransfer operation receiver).flatMap Instruction.names = [] := by
    unfold operationTransfer
    by_cases hcl : operation = .call
    · subst hcl
      rfl
    · rw [if_neg hcl]
      split
      · rfl
      · rfl
  have hk := (allKnown_arguments ha).append (.of_eq_nil ht)
  exact hk.subset (names_callCode frame args (operationTransfer operation receiver))

theorem codeKnown_storeResult (off : Int) : CodeKnown cx (storeResult off) kept := .of_eq_nil rfl

end

/-- Whether a construct was refused that makes sense. -/
def Refusal.isRejection : Refusal → Bool
  | .rejected .. => true
  | _ => false

/-- Every subroutine has a symbol. -/
def Selection.Aligned (cx : Context) (kept : Selection) : Prop :=
  kept.symbols.subroutines.length = cx.program.subroutines.length

/-- What may be refused. Unless all that is referred to was provided, that is anything but a construct that makes sense. -/
structure Limits (cx : Context) where
  /-- Whether all that is referred to was provided, symbols of subroutines apart. -/
  provided : Prop
  refused : Refusal → Selection → Prop
  lacking : ∀ {refusal : Refusal} {kept : Selection}, refusal.isRejection = false → (provided → ¬kept.Aligned cx) → refused refusal kept

/-- What may be refused where all was provided. -/
def Limits.given {cx : Context} (provided : Prop) (allowed : Refusal → Prop) : Limits cx :=
  ⟨provided, fun refusal kept => provided → kept.Aligned cx → allowed refusal, fun _ h hprovided haligned =>
    absurd haligned (h hprovided)⟩

/-- What may be refused where all was provided, and no construct that makes sense. -/
def Limits.accepting {cx : Context} (provided : Prop) (allowed : Refusal → Prop) : Limits cx :=
  ⟨provided, fun refusal kept => refusal.isRejection = false ∧ (provided → kept.Aligned cx → allowed refusal), fun hrefusal h =>
    ⟨hrefusal, fun hprovided haligned => absurd haligned (h hprovided)⟩⟩

/-- No construct is refused that makes sense. -/
def Limits.lenient (cx : Context) : Limits cx := .accepting False fun _ => True

/-- Run on what was kept, the step only adds notes; its result is as described, and nothing is refused beyond the limits. -/
def Selects (cx : Context) (kept : Selection) {α : Type} (step : SelectM α) (post : α → Selection → Prop)
    (limits : Limits cx) : Prop :=
  ∀ out after, step.run.run kept = .ok (out, after) → Notes cx kept after ∧ (∀ result, out = .ok result → post result after) ∧
      ∀ refusal, out = .error refusal → limits.refused refusal after

namespace Selects

variable {cx : Context} {kept : Selection} {α β : Type} {post : α → Selection → Prop} {limits : Limits cx}
  {step : SelectM α} {res : α} {after : Selection}

theorem of_ok (hrun : step.run.run kept = .ok (.ok res, after)) (hn : Notes cx kept after)
    (hp : post res after) : Selects cx kept step post limits := by
  intro out last hl
  obtain ⟨rfl, rfl⟩ := ok_pair_inj (hrun.symm.trans hl)
  refine ⟨hn, fun found hf => ?_, fun refusal hr => ?_⟩
  · exact Except.ok.inj hf ▸ hp
  · cases hr

theorem pure (h : post res kept) : Selects cx kept (pure res) post limits := of_ok rfl .refl h

variable {next : α → SelectM β} {post' : β → Selection → Prop}

theorem bind {first : SelectM α} (hf : Selects cx kept first post limits)
    (hnx : ∀ res later, Notes cx kept later → post res later → Selects cx later (next res) post' limits) :
    Selects cx kept (first >>= next) post' limits := by
  intro out after hrun
  obtain ⟨⟨found, later⟩, hrn, hrs⟩ := of_bind_eq_ok hrun
  obtain ⟨hn, hr, hrf⟩ := hf found later hrn
  cases found with
  | error refusal =>
    cases hrs
    refine ⟨hn, fun res hr => ?_, fun other ho => ?_⟩
    · cases hr
    · exact Except.error.inj ho ▸ hrf refusal rfl
  | ok res =>
    obtain ⟨hn', hp, hrd⟩ := hnx res later hn (hr res rfl) out after hrs
    exact ⟨hn.trans hn', hp, hrd⟩

section

variable {post' : α → Selection → Prop} (h : Selects cx kept step post limits)
  (hp : ∀ res later, post res later → post' res later)
include h hp

theorem mono {limits' : Limits cx} (hrf : ∀ refusal later, limits.refused refusal later → limits'.refused refusal later) :
    Selects cx kept step post' limits' := by
  intro out after hrun
  obtain ⟨hn, hrs, hr⟩ := h out after hrun
  exact ⟨hn, fun res heq => hp res after (hrs res heq), fun refusal heq => hrf refusal after (hr refusal heq)⟩

theorem imp : Selects cx kept step post' limits := h.mono hp fun _ _ h => h

end

theorem given {provided : Prop} {allowed : Refusal → Prop} (h : Selects cx kept step post (.accepting provided allowed)) :
    Selects cx kept step post (.given provided allowed) :=
  h.mono (fun _ _ h => h) fun _ _ h => h.2

variable {refusal : Refusal}

/-- What is refused where all was provided and every subroutine has a symbol. -/
theorem allowed {allowed : Refusal → Prop} (h : Selects cx kept step post (.given True allowed))
    (ha : kept.Aligned cx) (hrun : step.run.run kept = .ok (.error refusal, after)) : allowed refusal := by
  obtain ⟨hn, -, hr⟩ := h _ after hrun
  refine hr refusal rfl trivial ?_
  rw [Selection.Aligned, hn.subroutines_eq]
  exact ha

/-- What holds of every result, whatever was kept. -/
theorem yields {post : α → Prop} (h : ∀ kept, Selects cx kept step (fun res _ => post res) limits) : Yields step post :=
  fun kept res after hrun => (h kept _ after hrun).2.1 res rfl

theorem refuse (h : limits.refused refusal kept) : Selects cx kept (refuse refusal : SelectM α) post limits := by
  intro out after hrun
  cases hrun
  refine ⟨.refl, fun res hr => ?_, fun other ho => ?_⟩
  · cases hr
  · exact Except.error.inj ho ▸ h

theorem refuse_bind (h : limits.refused refusal kept) : Selects cx kept (SelectM.refuse refusal >>= next) post' limits :=
  bind (refuse h : Selects cx kept _ (fun _ _ => False) limits) fun _ _ _ hf => hf.elim

/-- What is required is found, or a refusal is in place. -/
theorem require {val : Option α} (h : val = none → limits.refused refusal kept) :
    Selects cx kept (require val refusal) (fun res _ => val = some res) limits := by
  cases val with
  | none => exact refuse (h rfl)
  | some val => exact pure rfl

/-- What is required is found if it was provided. -/
theorem require_some {val : Option α} (hr : refusal.isRejection = false) (h : limits.provided → val.isSome = true) :
    Selects cx kept (SelectM.require val refusal) (fun res _ => val = some res) limits := by
  refine require fun hn => limits.lacking hr fun hpr => ?_
  have hs := h hpr
  rw [hn] at hs
  cases hs

theorem lookUp_same (found : Except Fault α) :
    Selects cx kept (lookUp found) (fun res after => found = .ok res ∧ after = kept) limits := by
  cases found with
  | error fault =>
    intro out after hrun
    cases hrun
  | ok val => exact of_ok rfl .refl ⟨rfl, rfl⟩

theorem lookUp (found : Except Fault α) : Selects cx kept (lookUp found) (fun res _ => found = .ok res) limits :=
  (lookUp_same found).imp fun _ _ h => h.1

theorem get : Selects cx kept get (fun found after => found = after) limits := of_ok rfl .refl rfl

theorem modifyGet {change : Selection → α × Selection} (hn : Notes cx kept (change kept).2)
    (hp : post (change kept).1 (change kept).2) : Selects cx kept (modifyGet change) post limits :=
  of_ok rfl hn hp

theorem change {change : Selection → Selection} {post : PUnit → Selection → Prop} (hn : Notes cx kept (change kept))
    (hp : post ⟨⟩ (change kept)) : Selects cx kept (modify change) post limits :=
  modifyGet hn hp

/-- After a change, the next step finds what was changed. -/
theorem change_bind {change : Selection → Selection} {next : PUnit → SelectM α} (hnt : Notes cx kept (change kept))
    (hn : Selects cx (change kept) (next ⟨⟩) post limits) :
    Selects cx kept (modify change >>= next) post limits :=
  bind (Selects.change hnt (rfl : _ = change kept) : Selects cx kept _ (fun _ after => after = change kept) limits)
    fun _ _ _ ha => ha ▸ hn

theorem tryCatch {handle : Refusal → SelectM α} {caught : Limits cx} (hs : Selects cx kept step post caught)
    (hh : ∀ refusal later, Notes cx kept later → caught.refused refusal later →
      Selects cx later (handle refusal) post limits) : Selects cx kept (tryCatch step handle) post limits := by
  intro out after hrun
  obtain ⟨⟨found, later⟩, hrn, hrs⟩ := of_bind_eq_ok hrun
  obtain ⟨hn, hrl, hr⟩ := hs found later hrn
  cases found with
  | error refusal =>
    obtain ⟨hn', hp, hrf⟩ := hh refusal later hn (hr refusal rfl) out after hrs
    exact ⟨hn.trans hn', hp, hrf⟩
  | ok res =>
    cases hrs
    refine ⟨hn, fun found hf => ?_, fun refusal hr => ?_⟩
    · exact Except.ok.inj hf ▸ hrl res rfl
    · cases hr

/-- What is said of a part of what was joined, and stays so, is said of the whole. -/
theorem collect {step : α → SelectM (List β)} {post : List β → Selection → Prop} (hnil : ∀ kept, post [] kept)
    (ha : ∀ first rest kept later, Notes cx kept later → post first kept → post rest later → post (first ++ rest) later)
    (elems : List α)
    (hs : ∀ a ∈ elems, ∀ later, Notes cx kept later → Selects cx later (step a) post limits) :
    Selects cx kept (collect step elems) post limits := by
  induction elems generalizing kept with
  | nil => exact pure (hnil kept)
  | cons a rest ih =>
    refine bind (hs a mem_cons_self kept .refl) fun first later hn hf => ?_
    refine bind (ih fun b hb last hl => hs b (mem_cons_of_mem _ hb) last (hn.trans hl)) ?_
    exact fun others last hn' ho => pure (ha first others later last hn' hf ho)

theorem collect_forall₂ {step : α → SelectM (List β)} {made : α → β → Prop} (elems : List α)
    (hs : ∀ a ∈ elems, ∀ later, Selects cx later (step a) (fun found _ => ∃ b, found = [b] ∧ made a b) limits) :
    Selects cx kept (SelectM.collect step elems) (fun found _ => List.Forall₂ made elems found) limits := by
  induction elems generalizing kept with
  | nil => exact pure .nil
  | cons a rest ih =>
    refine bind (hs a mem_cons_self kept) fun first _ _ hf => ?_
    refine bind (ih fun b hb => hs b (mem_cons_of_mem _ hb)) fun others _ _ ho => pure ?_
    obtain ⟨b, rfl, hb⟩ := hf
    exact .cons hb ho

end Selects

/-! ## Where names come from -/

section

variable {cx : Context} {kept : Selection} {limits : Limits cx}

theorem addExtern_selects (name : String) : Selects cx kept (addExtern name) (fun _ after => name ∈ after.externs) limits :=
  .change (.single (.elsewhere name)) (mem_insertNew_self _ _)

/-- To refer to a method is to note it, unless that was done before. -/
theorem notes_referenceMethod (kept : Selection) {id : SubroutineId} {sub : Subroutine}
    (hid : cx.program.subroutines[id]? = some sub) (hb : sub.body?.isSome = true)
    (ho : sub.owner.isSome = true) :
    Notes cx kept
      { kept with
        symbols := (kept.symbols.referenceMethod id).2
        queue := if (kept.symbols.referenceMethod id).1 then kept.queue ++ [.subroutine id] else kept.queue } ∧
      id ∈ (kept.symbols.referenceMethod id).2.methods ∧
      (kept.symbols.referenceMethod id).2.subroutines = kept.symbols.subroutines := by
  unfold referenceMethod
  by_cases hmem : id ∈ kept.symbols.methods
  · rw [if_pos hmem]
    exact ⟨.refl, hmem, rfl⟩
  · rw [if_neg hmem]
    exact ⟨.single (.method hid hb ho hmem), mem_append_right _ (mem_singleton_self id), rfl⟩

/-- The symbol of a subroutine is known once it was asked for. -/
theorem subroutineSymbol_selects {id : SubroutineId} (hid : limits.provided → id < cx.program.subroutines.length) :
    Selects cx kept (subroutineSymbol cx id)
      (fun symbol after => after.symbols.subroutine? id = some symbol ∧ Knows cx after symbol) limits := by
  refine .bind (.require_some rfl fun h => by simpa using hid h) fun sub kept₁ _ hsb => ?_
  refine .bind .get fun found kept₂ _ hf => ?_
  subst hf
  refine .bind (.require fun hno => limits.lacking rfl fun hpr ha => ?_) fun symbol kept₃ hn hs => ?_
  · have hle := List.getElem?_eq_none_iff.mp hno
    rw [ha] at hle
    exact absurd (hid hpr) (Nat.not_lt.mpr hle)
  have hs : kept₃.symbols.subroutine? id = some symbol := by
    rwa [SymbolTable.subroutine?, hn.subroutines_eq]
  by_cases hb : sub.body?.isSome = true
  · rw [if_pos hb]
    by_cases ho : sub.owner.isSome = true
    · rw [if_pos ho]
      obtain ⟨hm, hmem, hsm⟩ := notes_referenceMethod kept₃ hsb hb ho
      have hs' : (kept₃.symbols.referenceMethod id).2.subroutine? id = some symbol := by
        rwa [SymbolTable.subroutine?, hsm]
      exact .change_bind hm (.pure ⟨hs', .subroutine hsb hb hs' fun _ => hmem⟩)
    · rw [if_neg ho]
      exact .pure ⟨hs, .subroutine hsb hb hs fun h => absurd h ho⟩
  · rw [if_neg hb]
    refine .bind (addExtern_selects symbol) fun _ _ hn' he => .pure ⟨?_, .elsewhere he⟩
    rwa [SymbolTable.subroutine?, hn'.subroutines_eq]

section

variable {ty : TypeId} (hc : (cx.program.classOfType? ty).isSome = true)
include hc

/-- To ask for an initializer is to note it, unless that was done before. -/
theorem notes_initializer {symbol : String} {first : Bool} {symbols : SymbolTable}
    (h : kept.symbols.initializer cx.program ty = .ok ((symbol, first), symbols)) :
    Notes cx kept { kept with symbols, queue := if first then kept.queue ++ [.initializer ty symbol] else kept.queue } ∧
      (ty, symbol) ∈ symbols.initializers := by
  unfold initializer at h
  cases hl : kept.symbols.initializers.lookup ty with
  | some name =>
    rw [hl] at h
    obtain ⟨hpr, rfl⟩ := ok_pair_inj h
    cases hpr
    obtain ⟨before, rest, he, -⟩ := lookup_eq_some_iff.mp hl
    exact ⟨.refl, by simp [he]⟩
  | none =>
    rw [hl] at h
    obtain ⟨typeName, ht, hr⟩ := of_bind_eq_ok h
    obtain ⟨hpr, rfl⟩ := ok_pair_inj hr
    cases hpr
    exact ⟨.single (.initializer hc hl ht rfl), mem_append_right _ (mem_singleton_self _)⟩

/-- The symbol of the initializer of a class is there once it was asked for. -/
theorem initializerSymbol_selects :
    Selects cx kept (initializerSymbol cx ty) (fun symbol after => (ty, symbol) ∈ after.symbols.initializers) limits := by
  refine .bind .get fun found kept₁ _ hf => ?_
  subst hf
  refine .bind (.lookUp_same _) fun ⟨⟨symbol, first⟩, symbols⟩ kept₂ _ ⟨hi, hs⟩ => ?_
  subst hs
  obtain ⟨hn, hmem⟩ := notes_initializer hc hi
  exact .change_bind hn (.pure hmem)

end

theorem knows_string (kept : Selection) (contents : String) :
    Knows cx { kept with symbols := (kept.symbols.string contents).2 } (kept.symbols.string contents).1 := by
  unfold string
  split
  · rename_i id hf
    exact .string (findIdx?_eq_some_iff_getElem.mp hf).1
  · exact .string (by simp [Table.nextId])

end

end TagAsm.Select
