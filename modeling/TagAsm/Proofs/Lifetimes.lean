import TagAsm.Proofs.Calls
import TagAsm.Proofs.Uniqueness

/-!
# Values are made and given up

A subroutine owns the values that lie in its frame. Emitted code is followed call by call, and what is kept track of is which
slots hold a value (`Watch`): a call may pass no slot whose value is gone, may make a value only where there is none, and may give
up only a value that is there. A slot that holds an address stands for the value at this address, which is there when the code
is entered.

At every label and every jump of the blocks all that the subroutine owns is there, since a value that is given up in between is
made anew by the very next call (`Woven.passes`). So the same is known along every path, and when the code is left, nothing is
there that was not there in the beginning.
-/

namespace TagAsm.Asm

open Abi Preparation Item

/-! ## What calls do to values -/

/-- What the code behind a symbol does with what it is given. -/
structure Roles where
  /-- It makes a value in the place that it is given first. -/
  makes : String → Bool
  /-- It works on values. -/
  takes : String → Bool

/-- Whether a word can be passed: if it is the address of a value, then the value has to be there. -/
def Held.isAlive (holds : Slot → Bool) : Held → Bool
  | .value slot => holds slot
  | _ => true

/-- The values are worked on. -/
def use (holds : Slot → Bool) (passed : List Held) : Option (Slot → Bool) :=
  if passed.all (Held.isAlive holds) then some holds else none

/-- The value in a slot, which is passed first, is given up. -/
def endLife (holds : Slot → Bool) (slot : Slot) (passed : List Held) : Option (Slot → Bool) :=
  if passed.head? = some (.value slot) ∧ passed.all (Held.isAlive holds) = true then some (Function.update holds slot false)
  else none

/-- A value is made in the slot that is passed first, where there is none. -/
def startLife (holds : Slot → Bool) : List Held → Option (Slot → Bool)
  | .value slot :: rest =>
    if holds slot = false ∧ rest.all (Held.isAlive holds) = true then some (Function.update holds slot true) else none
  | _ => none

/-- What a call does, if it may be made. Where the same symbol stands for code that makes a value and for code that works on one,
the call is of the kind that is possible. -/
def Call.effect (roles : Roles) (holds : Slot → Bool) (call : Call) : Option (Slot → Bool) :=
  match call.callee with
  | .unknown => none
  | .symbol name =>
    if call.passed.head?.all (Held.isAlive holds) then
      if roles.takes name then use holds call.passed else none
    else if roles.makes name then startLife holds call.passed
    else none
  | .operation kind receiver =>
    if kind = .drop then endLife holds receiver call.passed
    else if holds receiver = false then none
    else if kind = .copy then startLife holds call.passed
    else use holds call.passed

section

variable {roles : Roles} {holds : Slot → Bool} {slot receiver : Slot} {passed rest : List Held} {name : String} {kind : Operation}

theorem effect_operation (hd : kind ≠ .drop) (hc : kind ≠ .copy) (hr : holds receiver = true)
    (hp : ∀ held ∈ passed, held.isAlive holds = true) :
    Call.effect roles holds ⟨.operation kind receiver, passed⟩ = some holds := by
  simp [Call.effect, hd, hc, hr, use, List.all_eq_true.mpr hp]

theorem effect_takes (ht : roles.takes name = true) (hp : ∀ held ∈ passed, held.isAlive holds = true) :
    Call.effect roles holds ⟨.symbol name, passed⟩ = some holds := by
  have hf : passed.head?.all (Held.isAlive holds) = true := by
    cases passed with
    | nil => rfl
    | cons first rest => exact hp first List.mem_cons_self
  simp [Call.effect, hf, ht, use, List.all_eq_true.mpr hp]

theorem effect_makes (hm : roles.makes name = true) (hv : holds slot = false) (hr : ∀ held ∈ rest, held.isAlive holds = true) :
    Call.effect roles holds ⟨.symbol name, .value slot :: rest⟩ = some (Function.update holds slot true) := by
  simp [Call.effect, Held.isAlive, hv, hm, startLife, List.all_eq_true.mpr hr]

theorem effect_copy (hr : holds receiver = true) (hv : holds slot = false) (hrs : ∀ held ∈ rest, held.isAlive holds = true) :
    Call.effect roles holds ⟨.operation .copy receiver, .value slot :: rest⟩ = some (Function.update holds slot true) := by
  simp [Call.effect, hr, hv, startLife, List.all_eq_true.mpr hrs]

theorem effect_drop (hh : holds slot = true) (hr : ∀ held ∈ rest, held.isAlive holds = true) :
    Call.effect roles holds ⟨.operation .drop slot, .value slot :: rest⟩ = some (Function.update holds slot false) := by
  have hall : (Held.value slot :: rest).all (Held.isAlive holds) = true := List.all_eq_true.mpr (List.forall_mem_cons.mpr ⟨hh, hr⟩)
  simp only [Call.effect, endLife, if_true, List.head?_cons, hall, and_self]

end

/-! ## Following code -/

/-- What is known of the values while code is followed. -/
structure Watch where
  prepared : Preparation
  /-- Whether the value of a slot is there. -/
  holds : Slot → Bool
  /-- How often the label in front of the way out was passed. -/
  departures : Nat

/-- Whether no value that is there has bytes in common with the word at this offset. -/
def isClear (holds : Slot → Bool) (off : Int) : Bool :=
  (List.range (valueSize.toNat + 7)).all fun distance => !holds ⟨off - (valueSize - 1) + (distance : Nat), false⟩

/-- Whether an item that is not a call leaves all values alone. -/
def Item.spares (holds : Slot → Bool) : Item → Bool
  | .instruction op =>
    match op.destination? with
    | some (.displaced base off) => decide (base = .rbp) && isClear holds off
    | some (.register _ _) | none => true
    | some _ => false
  | .data _ => false
  | _ => true

/-- What is known after an item, if it may be passed. -/
def Watch.step (roles : Roles) (wayOut : String) (watch : Watch) (item : Item) : Option Watch :=
  match watch.prepared.call? item with
  | some call =>
    (call.effect roles watch.holds).map fun holds => { watch with prepared := watch.prepared.step item, holds := holds }
  | none =>
    if item.spares watch.holds then
      some ⟨watch.prepared.step item, watch.holds, if item = .label wayOut then watch.departures + 1 else watch.departures⟩
    else none

/-- The address of no slot is passed but of these, and of those that hold an address themselves. -/
def Call.Within (slots : List Slot) (call : Call) : Prop :=
  ∀ slot, Held.value slot ∈ call.passed → slot.byReference = true ∨ slot ∈ slots

section

variable {roles : Roles} {wayOut : String} {slots : List Slot} {Fits : Watch → Item → Prop}

/-- Asks nothing of straight code, except that its calls are about these slots. -/
def Lenient (slots : List Slot) (Fits : Watch → Item → Prop) : Prop :=
  ∀ watch item, item.isJoint = false → item.goesOn = true →
    (∀ call, watch.prepared.call? item = some call → call.Within slots) → Fits watch item

/-- Following the items leads from some values to others, and is no preparation for what comes after them. -/
abbrev Leads (roles : Roles) (wayOut : String) (Fits : Watch → Item → Prop) (departures : Nat) (holds : Slot → Bool)
    (items : List Item) (later : Slot → Bool) : Prop :=
  Passes (Watch.step roles wayOut) Fits ⟨.blank, holds, departures⟩ items ⟨.blank, later, departures⟩

variable {departures : Nat} (hl : Lenient slots Fits)
include hl

theorem Watch.passes_quiet {ops : List Instruction} (h : ∀ op ∈ ops, op.isQuiet = true) (p : Preparation) (holds : Slot → Bool) :
    Passes (step roles wayOut) Fits ⟨p, holds, departures⟩ (code ops) ⟨ops.foldl execute p, holds, departures⟩ := by
  induction ops generalizing p with
  | nil => exact .nil _
  | cons op rest ih =>
    obtain ⟨hop, hr⟩ := List.forall_mem_cons.mp h
    obtain ⟨hc, ht, hg, hw⟩ := Instruction.isQuiet_cases hop
    have hn := Instruction.call?_eq_none hc p
    have hsp : (instruction op).spares holds = true := by
      cases hd : op.destination? with
      | none => simp [spares, hd]
      | some operand =>
        obtain ⟨reg, width, rfl⟩ := hw operand hd
        simp [spares, hd]
    have hst : step roles wayOut ⟨p, holds, departures⟩ (.instruction op) = some ⟨p.execute op, holds, departures⟩ := by
      simp only [step, hn, hsp, if_true, reduceCtorEq, if_false]
      rfl
    refine .cons hst (hl _ _ ?_ hg ?_) (ih hr _)
    · simp [isJoint, target?, ht]
    · intro call hs
      rw [hn] at hs
      cases hs

/-- A prepared call does what it does, and nothing else. -/
theorem PreparesCall.passes {code : List Instruction} {call : Call} (h : PreparesCall code call) (hw : call.Within slots)
    {holds later : Slot → Bool} (he : call.effect roles holds = some later) :
    Leads roles wayOut Fits departures holds (Item.code code) later := by
  cases h with
  | @intro before after op call hb hc ha hbl =>
    have hm := mnemonic_eq_call hc
    have hcd : code (before ++ op :: after) = code before ++ (.instruction op :: code after) := by simp [code]
    have hs : Watch.step roles wayOut ⟨before.foldl execute .blank, holds, departures⟩ (.instruction op) =
        some ⟨.blank, later, departures⟩ := by
      simp only [Watch.step, hc, he, Option.map_some, step, execute_call _ hm]
    have hls : Leads roles wayOut Fits departures later (code after) later := by
      have hq : Passes (Watch.step roles wayOut) Fits ⟨_, _, departures⟩ _ _ := Watch.passes_quiet hl ha .blank later
      rwa [hbl] at hq
    rw [hcd]
    refine (Watch.passes_quiet hl hb .blank holds).append (.cons hs (hl _ _ ?_ ?_ ?_) hls)
    · obtain ⟨mnemonic, size, opds⟩ := op
      obtain rfl : mnemonic = .call := hm
      rfl
    · simp [goesOn, Instruction.goesOn, hm]
    · intro other ho
      cases hc.symm.trans ho
      exact hw

/-- A word may be written where no value is. -/
theorem Watch.passes_write {holds : Slot → Bool} {off : Int} (hcl : isClear holds off = true) (reg : Register) (p : Preparation) :
    Passes (step roles wayOut) Fits ⟨p, holds, departures⟩ (code [.movq (.quad reg) (.frame off)]) ⟨.blank, holds, departures⟩ := by
  refine .single ?_ (hl _ _ rfl rfl fun call hc => by cases hc)
  have hs : (instruction (.movq (.quad reg) (.frame off))).spares holds = true := hcl
  have hn : p.call? (.instruction (.movq (.quad reg) (.frame off))) = none := rfl
  simp only [step, hn, hs, if_true, reduceCtorEq, if_false]
  rfl

end

/-! ## Slots with values -/

/-- The values are there that are held by address, and those in these slots. -/
def occupied (slots : List Slot) (slot : Slot) : Bool := slot.byReference || decide (slot ∈ slots)

section

variable {slots : List Slot} {slot : Slot}

theorem occupied_eq_true : occupied slots slot = true ↔ slot.byReference = true ∨ slot ∈ slots := by
  simp [occupied]

theorem update_occupied_true (hsl : slot.byReference = false) :
    Function.update (occupied slots) slot true = occupied (slots ++ [slot]) := by
  funext other
  by_cases hs : other = slot
  · subst hs
    simp [occupied]
  · simp [occupied, hs]

theorem update_occupied_false (hsl : slot.byReference = false) (hnm : slot ∉ slots) :
    Function.update (occupied (slot :: slots)) slot false = occupied slots := by
  funext other
  by_cases hs : other = slot
  · subst hs
    simp [occupied, hsl, hnm]
  · simp [occupied, hs]

/-- Calls that pass only what is there are about these slots. -/
theorem within_of_isAlive {passed : List Held} (h : ∀ held ∈ passed, held.isAlive (occupied slots) = true) (callee : Callee) :
    Call.Within slots ⟨callee, passed⟩ :=
  fun slot hs => occupied_eq_true.mp (h (.value slot) hs)

/-- What is passed is there if the arguments are. -/
theorem isAlive_of_mem_handedFrom {holds : Slot → Bool} {args : List Argument}
    (h : ∀ arg ∈ args, arg.held.isAlive holds = true) (registers : Nat) :
    ∀ held ∈ handedFrom registers args, held.isAlive holds = true := by
  intro held hh
  rcases mem_handedFrom hh with rfl | ⟨arg, ha, rfl⟩
  · rfl
  · exact h arg ha

end

/-- The code can be left: the values are as they were when it was entered, and there was one way out. -/
def Watch.Settled (watch : Watch) : Prop := watch.holds = occupied [] ∧ watch.departures = 1

/-- The item may stand where this is known, in code that owns these slots. -/
structure Watch.Fits (slots : List Slot) (watch : Watch) (item : Item) : Prop where
  within : ∀ call, watch.prepared.call? item = some call → call.Within slots
  settled : item.goesOn = false → item.target? = none → watch.Settled

/-- Following the items, in code that owns these slots, leads from one state to the other. -/
abbrev Tends (roles : Roles) (wayOut : String) (slots : List Slot) (before : Watch) (items : List Item) (after : Watch) : Prop :=
  Passes (Watch.step roles wayOut) (Watch.Fits slots) before items after

/-- The item may stand in a part of the code that has one level at all labels and jumps. -/
structure Watch.FitsLevel (slots : List Slot) (level watch : Watch) (item : Item) : Prop extends watch.Fits slots item where
  joint : item.isJoint = true → watch = level

theorem Watch.lenient_fits (slots : List Slot) : Lenient slots (Fits slots) :=
  fun _ _ _ hg hw => ⟨hw, fun hs => absurd (hg.symm.trans hs) (by decide)⟩

theorem Watch.lenient_fitsLevel (slots : List Slot) (level : Watch) : Lenient slots (FitsLevel slots level) := fun watch item hp hg hw =>
    ⟨lenient_fits slots watch item hp hg hw, fun hj => absurd (hp.symm.trans hj) (by decide)⟩

section

variable {roles : Roles} {wayOut : String} {slots : List Slot}

/-- Only the label in front of the way out is counted. -/
theorem Watch.step_label {name : String} (hn : name ≠ wayOut) (watch : Watch) :
    watch.step roles wayOut (.label name) = some ⟨.blank, watch.holds, watch.departures⟩ := by
  simp [step, Preparation.call?, Item.spares, Preparation.step, hn]

theorem Watch.step_wayOut (watch : Watch) :
    watch.step roles wayOut (.label wayOut) = some ⟨.blank, watch.holds, watch.departures + 1⟩ := by
  simp [step, Preparation.call?, Item.spares, Preparation.step]

theorem Watch.fits_label (watch : Watch) (name : String) : watch.Fits slots (.label name) := by
  constructor
  · intro call hc
    cases hc
  · intro hs
    cases hs

theorem Watch.passes_label {name : String} (hn : name ≠ wayOut) (watch : Watch) :
    Tends roles wayOut slots watch [.label name] ⟨.blank, watch.holds, watch.departures⟩ :=
  .single (step_label hn watch) (fits_label watch name)

variable {item : Item} (h : item.target?.isSome = true)
include h

theorem Watch.step_jump (holds : Slot → Bool) (departures : Nat) :
    step roles wayOut ⟨.blank, holds, departures⟩ item = some ⟨.blank, holds, departures⟩ := by
  cases item with
  | instruction op =>
    obtain ⟨mnemonic, size, opds⟩ := op
    cases mnemonic with
    | jmp | jne | je => rfl
    | _ => cases h
  | _ => cases h

theorem Watch.passes_jump (holds : Slot → Bool) (departures : Nat) :
    Leads roles wayOut (FitsLevel slots ⟨.blank, holds, departures⟩) departures holds [item] holds := by
  refine .single (step_jump h holds departures) ⟨⟨fun call hc => ?_, fun _ hn => ?_⟩, fun _ => rfl⟩
  · cases item with
    | instruction op =>
      have hm := mnemonic_eq_call hc
      obtain ⟨mnemonic, size, opds⟩ := op
      obtain rfl : mnemonic = .call := hm
      cases h
    | _ => cases h
  · rw [hn] at h
    cases h

end

end TagAsm.Asm

namespace TagAsm.Select

open Asm Abi List
open TagAsm.Flow (SubroutineId ValueId)

/-! ## Pieces -/

/-- What is known of the symbols of a program: helpers and initializers make values, other helpers and subroutines work on them. -/
def rolesOf (context : Context) (symbols : SymbolTable) : Roles where
  makes name := Helper.all.any (fun helper => makes helper && helper.symbol = name)
    || symbols.initializers.any fun entry => (context.program.classOfType? entry.1).isSome && entry.2 = name
  takes name := Helper.all.any (fun helper => !makes helper && helper.symbol = name) || symbols.subroutines.contains name

section

variable {cx : Context} {syms : SymbolTable} {sym : String}

theorem makes_of_constructor (h : Constructor cx syms sym) : (rolesOf cx syms).makes sym = true := by
  cases h with
  | @helper helper hm => simpa [rolesOf] using Or.inl ⟨helper, mem_all helper, hm, rfl⟩
  | @initializer ty _ hc hmem =>
    simp only [rolesOf, Bool.or_eq_true, any_eq_true]
    exact Or.inr ⟨(ty, sym), hmem, by simp [hc]⟩

theorem takes_of_helper {helper : Helper} (h : makes helper = false) : (rolesOf cx syms).takes helper.symbol = true := by
  simpa [rolesOf] using Or.inl ⟨helper, mem_all helper, h, rfl⟩

theorem takes_of_subroutine {id : SubroutineId} (h : syms.subroutine? id = some sym) : (rolesOf cx syms).takes sym = true := by
  have hmem : sym ∈ syms.subroutines := mem_of_getElem? h
  simp [rolesOf, hmem]

variable {wayOut : String} {slots : List Slot} {Fits : Watch → Item → Prop} {departures : Nat} {args : List Argument}
  {holds later : Slot → Bool} {slot : Slot}

section

variable (hl : Lenient slots Fits) (frame : Frame) {transfer : Transfer} {callee : Callee}
include hl

/-- A call does what its arguments say. -/
theorem passes_call (hr : transfer.Reaches args callee) (ha : ∀ arg ∈ args, arg.held.isAlive (occupied slots) = true)
    (he : Call.effect (rolesOf cx syms) holds ⟨callee, handed args⟩ = some later) :
    Leads (rolesOf cx syms) wayOut Fits departures holds ((Piece.call transfer args).items frame) later :=
  (preparesCall_callCode frame hr).passes hl (within_of_isAlive (isAlive_of_mem_handedFrom ha _) _) he

/-- A call that begins or ends the life of the value that is passed first. -/
theorem passes_first (hr : transfer.Reaches (.value slot :: args) callee) (hs : occupied slots slot = true)
    (ha : ∀ arg ∈ args, arg.held.isAlive (occupied slots) = true)
    (hh : ∀ arg ∈ args, arg.held.isAlive holds = true)
    (he : ∀ rest, (∀ held ∈ rest, held.isAlive holds = true) →
      Call.effect (rolesOf cx syms) holds ⟨callee, .value slot :: rest⟩ = some later) :
    Leads (rolesOf cx syms) wayOut Fits departures holds ((Piece.call transfer (.value slot :: args)).items frame)
      later := by
  refine passes_call hl frame hr (forall_mem_cons.mpr ⟨hs, ha⟩) ?_
  rw [handed_cons]
  exact he _ (isAlive_of_mem_handedFrom hh _)

/-- A value that is there may be given up. -/
theorem passes_dropPiece (hs : occupied slots slot = true) (hh : holds slot = true) :
    Leads (rolesOf cx syms) wayOut Fits departures holds ((dropPiece (.value slot)).items frame) (Function.update holds slot false) :=
  passes_first hl frame (reaches_drop slot) hs (forall_mem_nil _) (forall_mem_nil _) fun _ => effect_drop hh

end

/-! ## Deeds and blocks -/

/-- The frame of a routine has no values but in these slots. -/
structure Routine.Owns (rt : Routine) (words : Nat) (slots : List Slot) : Prop where
  placed : ∀ id slot, rt.frame.slot? id = some slot → slot.byReference = true ∨ slot ∈ slots
  /-- Words are kept away from values. -/
  stores : ∀ off, rt.Stores words off → isClear (occupied slots) off = true
  /-- Words for native calls are kept away from addresses. -/
  scratch : ∀ off, rt.IsScratch words off → ∀ id, rt.frame.slot? id ≠ some ⟨off, true⟩

variable {rt : Routine} {words : Nat}

/-- All values that have a slot are there. -/
theorem Placed.isAlive (ho : rt.Owns words slots) {arg : Argument} (h : Placed rt.frame arg) :
    arg.held.isAlive (occupied slots) = true := by
  cases arg with
  | value slot =>
    obtain ⟨id, hid⟩ := h slot rfl
    exact occupied_eq_true.mpr (ho.placed id slot hid)
  | load off => exact occupied_eq_true.mpr (Or.inl rfl)
  | immediate word => rfl
  | symbol label => rfl

/-- A value is given up, and another one is made in its place. -/
theorem passes_remake (hl : Lenient slots Fits) (ho : rt.Owns words slots) {id : ValueId}
    (hs : rt.frame.slot? id = some slot) (hsy : Constructor cx syms sym)
    (har : ∀ arg ∈ args, rt.IsSource words arg) :
    Leads (rolesOf cx syms) wayOut Fits departures (occupied slots)
      (piecesCode rt.frame [dropPiece (.value slot), .call (.direct sym) (.value slot :: args)]) (occupied slots) := by
  have hh : occupied slots slot = true := occupied_eq_true.mpr (ho.placed id slot hs)
  -- While the slot is empty, what the new value is made from is still there.
  have hsr : ∀ arg ∈ args, arg.held.isAlive (Function.update (occupied slots) slot false) = true := by
    intro arg ha
    rcases har arg ha with (⟨word, rfl⟩ | ⟨label, rfl⟩) | ⟨off, rfl, hof⟩
    · rfl
    · rfl
    · have hne : (⟨off, true⟩ : Slot) ≠ slot := fun heq => ho.scratch off hof id (heq ▸ hs)
      exact (Function.update_of_ne hne _ _).trans (occupied_eq_true.mpr (Or.inl rfl))
  rw [piecesCode_pair]
  refine (passes_dropPiece hl _ hh hh).append (passes_first hl _ (.direct sym) hh
    (fun arg ha => Placed.isAlive ho (har arg ha).isWord.placed) hsr fun rest hrs => ?_)
  refine (effect_makes (makes_of_constructor hsy) (Function.update_self _ _ _) hrs).trans (congrArg some ?_)
  rw [Function.update_idem, ← hh, Function.update_eq_self]

/-- After a deed all is there that was there before. -/
theorem Deed.passes {deed : List Piece} (h : Deed cx rt words syms deed) (hl : Lenient slots Fits) (ho : rt.Owns words slots) :
    Leads (rolesOf cx syms) wayOut Fits departures (occupied slots) (piecesCode rt.frame deed) (occupied slots) := by
  have hp {args : List Argument} (ha : ∀ arg ∈ args, Placed rt.frame arg) :
      ∀ arg ∈ args, arg.held.isAlive (occupied slots) = true := fun arg har => Placed.isAlive ho (ha arg har)
  -- Where a routine works on values, all of them are there.
  have ht {transfer : Transfer} {args : List Argument} {sym : String} (hr : transfer.Reaches args (.symbol sym))
      (ht : (rolesOf cx syms).takes sym = true) (ha : ∀ arg ∈ args, Placed rt.frame arg) :
      Leads (rolesOf cx syms) wayOut Fits departures (occupied slots) (piecesCode rt.frame [.call transfer args]) (occupied slots) := by
    rw [piecesCode_singleton]
    exact passes_call hl _ hr (hp ha) (effect_takes ht (isAlive_of_mem_handedFrom (hp ha) _))
  cases h with
  | @apply operation receiver args hd hc hr ha =>
    obtain ⟨place, slot, hrg, hv⟩ := hr
    have hsl : occupied slots slot = true := Placed.isAlive ho (ha _ (mem_of_getElem? hv))
    rw [piecesCode_singleton]
    exact passes_call hl _ (.operation operation hrg hv) (hp ha) (effect_operation hd hc hsl (isAlive_of_mem_handedFrom (hp ha) _))
  | help hm ha => exact ht (.direct _) (takes_of_helper hm) ha
  | invoke hs ha => exact ht (.direct _) (takes_of_subroutine hs) ha
  | native hs ha => exact ht (.native _) (takes_of_subroutine hs) fun arg har => (ha arg har).placed
  | store hof => exact Watch.passes_write hl (ho.stores _ hof) .rax .blank
  | remake ht hs ha =>
    obtain ⟨slot, hsl, rfl⟩ := ht
    exact passes_remake hl ho hsl hs ha

/-- At all labels and jumps of the blocks, all is there that the routine owns. -/
theorem Woven.passes {items : List Item} (h : Woven cx rt words syms items) (ho : rt.Owns words slots) :
    Leads (rolesOf cx syms) (localLabel rt.symbol "deinit") (Watch.FitsLevel slots ⟨.blank, occupied slots, 0⟩) 0
      (occupied slots) items (occupied slots) := by
  have hlb : ∀ name, name ≠ localLabel rt.symbol "deinit" → Leads (rolesOf cx syms) (localLabel rt.symbol "deinit")
      (Watch.FitsLevel slots ⟨.blank, occupied slots, 0⟩) 0 (occupied slots) [.label name] (occupied slots) :=
    fun name hn => .single (Watch.step_label hn _) ⟨Watch.fits_label _ name, fun _ => rfl⟩
  have hl := Watch.lenient_fitsLevel slots ⟨.blank, occupied slots, 0⟩
  induction h with
  | nil => exact .nil _
  | comment text => exact .single rfl (hl _ _ rfl rfl fun _ hc => by cases hc)
  | line num =>
    refine hlb _ fun heq => ?_
    have hln := isLineLabel_lineLabel rt.symbol num
    rw [heq, isLineLabel_localLabel (by decide)] at hln
    cases hln
  | block id => exact hlb _ (blockLabel_ne (by decide) id)
  | deed hd => exact hd.passes hl ho
  | jump | leave => exact Watch.passes_jump rfl _ _
  | branch pos neg =>
    refine .cons rfl (hl _ _ rfl rfl fun _ hc => by cases hc) ?_
    exact (Watch.passes_jump rfl _ _).append (Watch.passes_jump rfl _ _)
  | append _ _ ihfirst ihrest => exact ihfirst.append ihrest

/-! ## The first and the last values -/

/-- The piece makes a value in a slot: it copies one that is held by address, or constructs one. -/
inductive Builds (cx : Context) (syms : SymbolTable) (slot : Slot) : Piece → Prop where
  | copy {src : Slot} (hsource : src.byReference = true) : Builds cx syms slot (.call (.operation .copy .rsi) [.value slot, .value src])
  | construct {sym : String} {args : List Argument} (hsymbol : Constructor cx syms sym)
    (harguments : ∀ argument ∈ args, IsConstant argument) :
    Builds cx syms slot (.call (.direct sym) (.value slot :: args))

theorem Builds.passes {piece : Piece} (h : Builds cx syms slot piece) (hl : Lenient slots Fits)
    (hmem : slot ∈ slots) {done : List Slot} (hi : slot.byReference = false) (hnm : slot ∉ done) (frame : Frame) :
    Leads (rolesOf cx syms) wayOut Fits departures (occupied done) (piece.items frame) (occupied (done ++ [slot])) := by
  have hv : occupied done slot = false := by simp [occupied, hi, hnm]
  have hs : occupied slots slot = true := occupied_eq_true.mpr (Or.inr hmem)
  rw [← update_occupied_true hi]
  -- The arguments after the first one can be passed whatever slots hold values.
  cases h with
  | @copy src hsr =>
    have ha : ∀ others, ∀ arg ∈ [Argument.value src], arg.held.isAlive (occupied others) = true :=
      fun others => forall_mem_singleton.mpr (occupied_eq_true.mpr (Or.inl hsr))
    exact passes_first hl frame (reaches_copy slot src) hs (ha _) (ha _) fun _ =>
      effect_copy (occupied_eq_true.mpr (Or.inl hsr)) hv
  | @construct sym args hsy har =>
    have ha : ∀ others, ∀ arg ∈ args, arg.held.isAlive (occupied others) = true := by
      intro others arg ha
      rcases har arg ha with ⟨word, rfl⟩ | ⟨label, rfl⟩ <;> rfl
    exact passes_first hl frame (.direct _) hs (ha _) (ha _) fun _ => effect_makes (makes_of_constructor hsy) hv

/-- Values are made one after the other. -/
theorem passes_builds (hl : Lenient slots Fits) {new done : List Slot} {pieces : List Piece}
    (h : Forall₂ (Builds cx syms) new pieces) (hi : ∀ slot ∈ new, slot.byReference = false)
    (hmem : ∀ slot ∈ new, slot ∈ slots) (hn : (done ++ new).Nodup) (frame : Frame) :
    Leads (rolesOf cx syms) wayOut Fits departures (occupied done) (piecesCode frame pieces) (occupied (done ++ new)) := by
  induction h generalizing done with
  | nil =>
    rw [append_nil]
    exact .nil _
  | @cons slot piece new pieces hb _ ih =>
    obtain ⟨hf, hr⟩ := forall_mem_cons.mp hi
    obtain ⟨hs, ho⟩ := forall_mem_cons.mp hmem
    have hnm : slot ∉ done := fun hd => (nodup_append'.mp hn).2.2 hd mem_cons_self
    rw [append_cons] at hn ⊢
    exact (hb.passes hl hs hf hnm frame).append (ih hr ho hn)

/-- Values are given up one after the other. -/
theorem passes_drops (hl : Lenient slots Fits) {last : List Slot} {pieces : List Piece}
    (h : Forall₂ (fun slot piece => piece = dropPiece (.value slot)) last pieces)
    (hi : ∀ slot ∈ last, slot.byReference = false) (hmem : ∀ slot ∈ last, slot ∈ slots) (hn : last.Nodup) (frame : Frame) :
    Leads (rolesOf cx syms) wayOut Fits departures (occupied last) (piecesCode frame pieces) (occupied []) := by
  induction h with
  | nil => exact .nil _
  | @cons slot piece last pieces hp _ ih =>
    obtain ⟨hf, hr⟩ := forall_mem_cons.mp hi
    obtain ⟨hs, ho⟩ := forall_mem_cons.mp hmem
    obtain ⟨hnm, hls⟩ := nodup_cons.mp hn
    subst hp
    have hh : occupied (slot :: last) slot = true := occupied_eq_true.mpr (Or.inr mem_cons_self)
    have ht := ih hr ho hls
    rw [← update_occupied_false hf hnm] at ht
    exact (passes_dropPiece hl frame (occupied_eq_true.mpr (Or.inr hs)) hh).append ht

end

end TagAsm.Select
