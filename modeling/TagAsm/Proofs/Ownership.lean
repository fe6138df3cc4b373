import TagAsm.Proofs.Lifetimes

/-!
# What a subroutine owns

The code of a subroutine is followed from its symbol to where it is left. In front of the blocks a value is made in every slot
that the body owns (`Proper.builds`), the blocks leave all of them there (`Woven.passes`), and after the label in front of the way
out they are given up (`Proper.drops_owned`). Only that label and the labels of blocks are jumped to, so the same is known along
every path (`Proper.joined`), and wherever control comes, the next item may be passed (`Proper.watched`).
-/

namespace TagAsm.Select

open Asm Abi List Instruction Watch
open TagAsm.Flow (ValueId Body)

/-! ## Subroutines -/

/-- Only temporaries receive addresses, and all values are different. -/
structure Orderly (body : Body) : Prop where
  distinct : Distinct body
  references : ∀ value ∈ referenceValues body, value ∈ body.temporaries

namespace Phases

variable {cx : Context} {syms : SymbolTable} {ph : Phases}

/-- Following the items leads from one state to the other, in a subroutine with these phases. -/
abbrev Watches (cx : Context) (syms : SymbolTable) (ph : Phases) (before : Watch) (items : List Item) (after : Watch) :
    Prop :=
  Tends (rolesOf cx syms) (localLabel ph.symbol "deinit") (ownedSlots ph.body) before items after

/-- No value lies where a word is kept. -/
theorem isClear_of_apart {body : Body} {off : Int} (h : ∀ slot ∈ ownedSlots body, slot.offset + valueSize ≤ off ∨ off + 8 ≤ slot.offset) :
    isClear (occupied (ownedSlots body)) off = true := by
  refine all_eq_true.mpr fun distance hd => ?_
  have hlt : distance < 31 := mem_range.mp hd
  simp only [occupied, Bool.false_or, Bool.not_eq_true', decide_eq_false_iff_not]
  intro hmem
  have ha := h _ hmem
  simp only [valueSize] at ha
  omega

/-- The values in the frame of a subroutine lie in the slots of its body that are not for addresses. -/
theorem owns (ph : Phases) : ph.routine.Owns ph.words (ownedSlots ph.body) := by
  have hst := stacked_slotSpans ph.body
  -- Words for native calls lie below all slots.
  have hb : ∀ off, ph.routine.IsScratch ph.words off → off + 8 ≤ -(bodyFrame ph.body).size := by
    rintro off ⟨scratch, place, hsc, hpl, rfl⟩
    obtain ⟨-, hh⟩ := (scratch_span hsc).bounds (mem_singleton_self _)
    simp only at hh
    omega
  have hsp : ∀ slot ∈ ownedSlots ph.body, slot.span ∈ slotSpans ph.body ∧ slot.span.width = valueSize := by
    intro slot hs
    obtain ⟨hmem, hi⟩ := mem_ownedSlots.mp hs
    exact ⟨mem_map_of_mem hmem, by simp [Slot.span, hi]⟩
  refine ⟨fun id slot hs => ?_, fun off hof => isClear_of_apart fun slot hs => ?_, fun off hof id hs => ?_⟩
  · cases hr : slot.byReference with
    | true => exact Or.inl rfl
    | false => exact Or.inr (mem_ownedSlots.mpr ⟨mem_bodySlots hs, hr⟩)
  · obtain ⟨hmem, hw⟩ := hsp slot hs
    rcases hof with ⟨id, hid⟩ | hsc
    · have hp : (⟨off, 8⟩ : Span) ∈ slotSpans ph.body := mem_map_of_mem (mem_bodySlots hid)
      have hne : slot.span ≠ ⟨off, 8⟩ := by
        intro heq
        rw [heq] at hw
        have hwr : (8 : Int) = valueSize := hw
        exact absurd hwr (by decide)
      have ha := hst.apart hmem hp hne
      rw [hw] at ha
      exact ha
    · have hlow : -(bodyFrame ph.body).size ≤ slot.offset := (hst.bounds hmem).1
      have hh := hb off hsc
      exact Or.inr (by omega)
  · have hp : (⟨off, 8⟩ : Span) ∈ slotSpans ph.body := mem_map_of_mem (mem_bodySlots hs)
    have hlow : -(bodyFrame ph.body).size ≤ off := (hst.bounds hp).1
    have hh := hb off hof
    omega

section

variable (h : ph.Proper cx syms) (ho : Orderly ph.body)
include h ho

/-- Each parameter is copied from where its address is kept. -/
theorem Proper.copies_build : Forall₂ (fun val piece => ∃ slot, ph.frame.slot? val = some slot ∧ Builds cx syms slot piece)
      ph.body.parameters ph.copies := by
  have hk : ph.layout.records.map Prod.fst = ph.body.parameters := records_layoutOf _ _
  have hn : (ph.layout.records.map Prod.fst).Nodup := hk ▸ ho.distinct.parts.1
  have hrs := slots_withRecords ph.layout.frame hn
  rw [forall₂_map_left_iff, forall₂_map_right_iff, forall₂_same] at hrs
  rw [← hk, forall₂_map_left_iff]
  refine forall₂_imp_of_mem (h.copies.forall₂ hn) fun record hr piece ⟨src, hs, hpc⟩ => ⟨record.2, hrs record hr, ?_⟩
  obtain ⟨place, hpl⟩ := getElem?_of_mem hr
  have hp : ph.body.parameters[place]? = some record.1 := by
    rw [← hk, getElem?_map, hpl, Option.map_some]
  have ha : ph.layout.frame.slot? record.1 = some (arrivalSlot place) := ho.distinct.slot?_parameter _ hp
  cases hs.symm.trans ha
  subst hpc
  refine .copy ?_
  unfold arrivalSlot
  split <;> rfl

/-- The values that a subroutine owns are made in this order. -/
theorem Proper.builds : Forall₂ (Builds cx syms) (ownedSlots ph.body) (ph.copies ++ ph.defaults) := by
  have hss := ho.distinct.ownedSlots ho.references ph.words
  have hvs : ownedValues ph.body = ph.body.parameters ++ ownedVariables ph.body := by
    have hl : ph.body.locals.filter (· ∉ referenceValues ph.body) = ph.body.locals := by
      refine filter_eq_self.mpr fun val hv => ?_
      obtain ⟨-, -, -, -, hot, -⟩ := ho.distinct.parts
      simpa using fun hr => hot val hv (ho.references val hr)
    rw [ownedValues_eq ho.distinct ho.references, ownedVariables, filter_append, hl, append_assoc]
  have hd : Forall₂ (fun val piece => ∃ slot, ph.frame.slot? val = some slot ∧ Builds cx syms slot piece)
      (ownedVariables ph.body) ph.defaults := by
    refine h.defaults.imp fun val piece hp => ?_
    obtain ⟨slot, helper, args, hs, hm, ha, rfl⟩ := hp
    exact ⟨slot, hs, .construct (.helper hm) ha⟩
  rw [hvs] at hss
  refine forall₂_of_forall₂ (fun val slot piece hs hp => ?_) hss (rel_append (h.copies_build ho) hd)
  obtain ⟨found, hf, hb⟩ := hp
  cases hs.symm.trans hf
  exact hb

/-- The values that a subroutine owns are given up in the same order. -/
theorem Proper.drops_owned : Forall₂ (fun slot piece => piece = dropPiece (.value slot)) (ownedSlots ph.body) ph.drops := by
  refine forall₂_of_forall₂ (fun val slot piece hs hp => ?_) (ho.distinct.ownedSlots ho.references ph.words) h.drops
  obtain ⟨found, hf, rfl⟩ := hp
  cases hs.symm.trans hf
  rfl

end

/-- The label of another phase is not the one in front of the way out. -/
theorem passes_role (ph : Phases) (roles : Roles) (slots : List Slot) {role : String} (hr : role ≠ "deinit") (watch : Watch) :
    Tends roles (localLabel ph.symbol "deinit") slots watch [.label (localLabel ph.symbol role)]
      { watch with prepared := .blank } :=
  passes_label (fun h => hr (localLabel_inj.mp h)) watch

/-- Words may be kept anywhere as long as there are no values. -/
theorem passes_saves (roles : Roles) (wayOut : String) (slots : List Slot) (pairs : List (Slot × Register)) (p : Preparation) :
    ∃ last, Tends roles wayOut slots ⟨p, occupied [], 0⟩
      (Item.code (pairs.map fun (slot, reg) => .movq (.quad reg) (.frame slot.offset))) ⟨last, occupied [], 0⟩ := by
  have hc : ∀ off, isClear (occupied []) off = true := by
    intro off
    simp [isClear, occupied]
  induction pairs generalizing p with
  | nil => exact ⟨p, .nil _⟩
  | cons pair rest ih =>
    obtain ⟨last, hr⟩ := ih .blank
    exact ⟨last, (passes_write (lenient_fits slots) (hc pair.1.offset) pair.2 p).append hr⟩

/-- When a subroutine is entered, no values are made. -/
theorem passes_entry (ph : Phases) (roles : Roles) (slots : List Slot) :
    ∃ last, Tends roles (localLabel ph.symbol "deinit") slots ⟨.blank, occupied [], 0⟩
      (ph.opening ++ Item.code ph.saves) ⟨last, occupied [], 0⟩ := by
  have hex : Tends roles (localLabel ph.symbol "deinit") slots ⟨.blank, occupied [], 0⟩ [.exported ph.symbol] ⟨.blank, occupied [], 0⟩ :=
    .single rfl (lenient_fits slots _ _ rfl rfl fun call hc => by cases hc)
  have hsy : Tends roles (localLabel ph.symbol "deinit") slots ⟨.blank, occupied [], 0⟩ [.label ph.symbol] ⟨.blank, occupied [], 0⟩ :=
    passes_label (localLabel_ne_self ph.symbol "deinit").symm _
  have he := ph.passes_role roles slots (by decide : "entry" ≠ "deinit") ⟨.blank, occupied [], 0⟩
  have hop : ∀ op ∈ openFrame ++ [.subq ph.frame.size .rsp], op.isQuiet = true := by
    simp [openFrame, isQuiet, destination?, pushq, movq, subq, Operand.quad]
  obtain ⟨last, hs⟩ := passes_saves roles (localLabel ph.symbol "deinit") slots
    ((ph.layout.returnSlot, .rdi) :: ph.layout.incoming.zip (Register.arguments.drop 1))
    ((openFrame ++ [subq ph.frame.size .rsp]).foldl Preparation.execute .blank)
  refine ⟨last, Passes.append ?_ hs⟩
  exact ((hex.append hsy).append he).append (passes_quiet (lenient_fits slots) hop _ _)

/-- In front of the blocks, all is made that the subroutine owns. -/
theorem Proper.passes_making (h : ph.Proper cx syms) (ho : Orderly ph.body) : ph.Watches cx syms ⟨.blank, occupied [], 0⟩ ph.making
      ⟨.blank, occupied (ownedSlots ph.body), 0⟩ := by
  obtain ⟨last, he⟩ := ph.passes_entry (rolesOf cx syms) (ownedSlots ph.body)
  have hi : ∀ slot ∈ ownedSlots ph.body, slot.byReference = false := fun slot hs => (mem_ownedSlots.mp hs).2
  have hn : (ownedSlots ph.body).Nodup := (nodup_offsets_ownedSlots ph.body).of_map _
  -- There is a label after the parameters, so the slots are parted there.
  have hb := h.builds ho
  have hc := forall₂_take_append _ _ _ hb
  have hd := forall₂_drop_append _ _ _ hb
  generalize hf : (ownedSlots ph.body).take ph.copies.length = first at hc
  generalize hr : (ownedSlots ph.body).drop ph.copies.length = rest at hd
  have hall : first ++ rest = ownedSlots ph.body := by
    rw [← hf, ← hr, take_append_drop]
  have hin : ∀ slot ∈ first ++ rest, slot ∈ ownedSlots ph.body := fun slot hs => hall ▸ hs
  obtain ⟨hif, hir⟩ := forall_mem_append.mp hin
  have hnf : ([] ++ first).Nodup := by
    rw [← hall] at hn
    exact (nodup_append'.mp hn).1
  have hcl := ph.passes_role (rolesOf cx syms) (ownedSlots ph.body) (by decide : "copy" ≠ "deinit") ⟨last, occupied [], 0⟩
  have hil := ph.passes_role (rolesOf cx syms) (ownedSlots ph.body) (by decide : "init" ≠ "deinit") ⟨.blank, occupied first, 0⟩
  have hmf : ph.Watches cx syms ⟨_, _, 0⟩ _ _ := passes_builds (lenient_fits _) hc (fun slot hs => hi slot (hif slot hs)) hif hnf ph.frame
  have hmr : ph.Watches cx syms ⟨_, _, 0⟩ _ _ :=
    passes_builds (lenient_fits _) hd (fun slot hs => hi slot (hir slot hs)) hir (hall ▸ hn) ph.frame
  rw [hall] at hmr
  exact he.append (hcl.append (hmf.append (hil.append hmr)))

/-- The label in front of the way out is reached once, with all that the subroutine owns. -/
theorem Proper.passes_working (h : ph.Proper cx syms) : Passes (step (rolesOf cx syms) (localLabel ph.symbol "deinit"))
      (FitsLevel (ownedSlots ph.body) ⟨.blank, occupied (ownedSlots ph.body), 0⟩)
      ⟨.blank, occupied (ownedSlots ph.body), 0⟩ ph.working ⟨.blank, occupied (ownedSlots ph.body), 1⟩ :=
  (h.blocks.passes ph.owns).append (.single (step_wayOut _) ⟨fits_label _ _, fun _ => rfl⟩)

/-- A helper that works on values which are held by address can be called at any time. -/
theorem passes_help {slots : List Slot} {helper : Helper} (hm : makes helper = false) {args : List Argument}
    (ha : ∀ others, ∀ arg ∈ args, arg.held.isAlive (occupied others) = true) (frame : Frame) (wayOut : String)
    (departures : Nat) :
    Leads (rolesOf cx syms) wayOut (Fits slots) departures (occupied [])
      ((Piece.call (.direct helper.symbol) args).items frame) (occupied []) :=
  passes_call (lenient_fits slots) frame (.direct _) (ha slots) (effect_takes (takes_of_helper hm) (isAlive_of_mem_handedFrom (ha []) _))

/-- The process may end, or the code return, when nothing is left. -/
theorem passes_stop {slots : List Slot} {op : Instruction} (hop : op = .ret ∨ op = ⟨.syscall, none, []⟩) (roles : Roles)
    (wayOut : String) (p : Preparation) :
    Tends roles wayOut slots ⟨p, occupied [], 1⟩ [.instruction op] ⟨.blank, occupied [], 1⟩ := by
  rcases hop with rfl | rfl <;> exact .single rfl ⟨fun call hc => (by cases hc), fun _ _ => ⟨rfl, rfl⟩⟩

section

variable (h : ph.Proper cx syms) (ho : Orderly ph.body)
include h ho

theorem Proper.passes_leave : ph.Watches cx syms ⟨.blank, occupied [], 1⟩ ph.leave ⟨.blank, occupied [], 1⟩ := by
  have hq : ∀ ops : List Instruction, (∀ op ∈ ops, op.isQuiet = true) → ∀ p : Preparation,
      ph.Watches cx syms ⟨p, occupied [], 1⟩ (Item.code ops) ⟨ops.foldl Preparation.execute p, occupied [], 1⟩ :=
    fun ops hops p => passes_quiet (lenient_fits _) hops p _
  have hf : ph.Watches cx syms ⟨.blank, occupied [], 1⟩
      ((Piece.call (.direct Helper.flushOutput.symbol) []).items ph.frame) ⟨.blank, occupied [], 1⟩ :=
    passes_help rfl (fun _ => forall_mem_nil _) _ _ _
  have hl := h.leave
  generalize ph.exit = exit, ph.leave = leave at hl ⊢
  cases hl with
  | toCaller =>
    refine (hq [.movq (.quad .rbp) (.quad .rsp), .popq .rbp] ?_ .blank).append (passes_stop (Or.inl rfl) _ _ _)
    exact forall_mem_pair rfl rfl
  | @withCode kind slot hs =>
    have hr : ph.frame.slot? ph.body.returnValue = some (Frame.empty.nextSlot true) := (forall₂_cons.mp (ho.distinct.slots ph.words)).1
    cases hs.symm.trans hr
    have hu : ph.Watches cx syms ⟨.blank, occupied [], 1⟩
        ((Piece.call (.direct (Helper.unwrap kind).symbol) [.value (Frame.empty.nextSlot true)]).items ph.frame)
        ⟨.blank, occupied [], 1⟩ :=
      passes_help rfl (fun _ => forall_mem_singleton.mpr rfl) _ _ _
    rw [piecesCode_pair]
    have he := hq [.movq (.quad .rax) (.quad .rdi), .movq (.immediate exitCall) (.quad .rax)] ?_ .blank
    · exact (hf.append hu).append (he.append (passes_stop (Or.inr rfl) _ _ _))
    · exact forall_mem_pair rfl rfl
  | withoutCode =>
    rw [piecesCode_singleton]
    have he := hq [.zero .rdi, .movq (.immediate exitCall) (.quad .rax)] ?_ .blank
    · exact hf.append (he.append (passes_stop (Or.inr rfl) _ _ _))
    · exact forall_mem_pair rfl rfl

/-- After the blocks, all is given up that the subroutine owns, and the code is left. -/
theorem Proper.passes_leaving : ph.Watches cx syms ⟨.blank, occupied (ownedSlots ph.body), 1⟩ ph.leaving ⟨.blank, occupied [], 1⟩ := by
  have hn : (ownedSlots ph.body).Nodup := (nodup_offsets_ownedSlots ph.body).of_map _
  have hd : ph.Watches cx syms ⟨.blank, occupied (ownedSlots ph.body), 1⟩ (piecesCode ph.frame ph.drops) ⟨.blank, occupied [], 1⟩ :=
    passes_drops (lenient_fits _) (h.drops_owned ho) (fun slot hs => (mem_ownedSlots.mp hs).2) (fun slot hs => hs) hn _
  have he := ph.passes_role (rolesOf cx syms) (ownedSlots ph.body) (by decide : "epilogue" ≠ "deinit") ⟨.blank, occupied [], 1⟩
  have hex := ph.passes_role (rolesOf cx syms) (ownedSlots ph.body) (by decide : "exit" ≠ "deinit") ⟨.blank, occupied [], 1⟩
  exact (hd.append he).append ((h.passes_leave ho).append hex)

theorem Proper.passes_items : ph.Watches cx syms ⟨.blank, occupied [], 0⟩ ph.items ⟨.blank, occupied [], 1⟩ := by
  rw [items_eq]
  refine (h.passes_making ho).append (Passes.append ?_ (h.passes_leaving ho))
  exact h.passes_working.mono fun _ _ _ hf => hf.toFits

end

/-! ## Paths through subroutines -/

/-- The code that leaves a subroutine does so with its last instruction. -/
theorem stops_of_leaving {frame : Frame} {returnValue : ValueId} {exit : Exit} {items : List Item}
    (h : Leaving frame returnValue exit items) : ∃ before stop, items = before ++ [stop] ∧ stop.goesOn = false := by
  rcases h.shape with rfl | ⟨pieces, op, rfl, -, -⟩
  · exact ⟨Item.code [.movq (.quad .rbp) (.quad .rsp), .popq .rbp], .instruction .ret, rfl, rfl⟩
  · refine ⟨piecesCode frame pieces ++ Item.code [op, .movq (.immediate exitCall) (.quad .rax)],
      .instruction ⟨.syscall, none, []⟩, ?_, rfl⟩
    simp [Item.code, exitProcess]

variable (h : ph.Proper cx syms)
include h

/-- The same is known along every path. -/
theorem Proper.joined (ho : Orderly ph.body) :
    Joined (step (rolesOf cx syms) (localLabel ph.symbol "deinit")) ph.items ⟨.blank, occupied [], 0⟩ := by
  rw [items_eq]
  exact joined_of_passes (h.passes_making ho).ends h.passes_working (fun now item hf => hf.joint)
    (fun item hj => step_jump hj _ _) h.jumps_inside.1 h.jumps_inside.2

/-- Wherever control comes, there is an item that may be passed. -/
theorem Proper.watched (ho : Orderly ph.body) {place : Nat} {watch : Watch}
    (htr : Tracks (step (rolesOf cx syms) (localLabel ph.symbol "deinit")) ph.items ⟨.blank, occupied [], 0⟩ place watch) :
    ∃ item next, ph.items[place]? = some item ∧ watch.step (rolesOf cx syms) (localLabel ph.symbol "deinit") item = some next ∧
      watch.Fits (ownedSlots ph.body) item := by
  have his := h.passes_items ho
  have hs := (h.joined ho).scan_of_tracks htr
  obtain ⟨before, stop, hl, hsp⟩ := stops_of_leaving h.leave
  have hend : ph.items = (ph.making ++ (ph.working ++ (piecesCode ph.frame ph.drops
      ++ ([.label (localLabel ph.symbol "epilogue")] ++ before)))) ++ [stop, .label (localLabel ph.symbol "exit")] := by
    rw [items_eq, leaving, emptying, hl]
    simp
  have hts : ∀ item ∈ ph.items, item.target? ≠ some (localLabel ph.symbol "exit") := by
    intro item hi ht
    rw [items_eq] at hi
    rcases mem_append.mp hi with hi | hi
    · rw [(ph.plain_making item hi).1] at ht
      cases ht
    rcases mem_append.mp hi with hi | hi
    · exact h.target_notMem hi ht (mem_cons_of_mem _ (mem_map_of_mem (by decide)))
    · rw [(h.plain_leaving item hi).1] at ht
      cases ht
  have hlt : place < ph.items.length := by
    have hp := htr.lt_of_stop hend hsp hts
    rw [hend, length_append]
    exact Nat.lt_succ_of_lt hp
  obtain ⟨item, hi⟩ : ∃ item, ph.items[place]? = some item := ⟨_, getElem?_eq_getElem hlt⟩
  obtain ⟨next, hst⟩ := his.exists_step hi hs
  obtain ⟨now, hnow, hf⟩ := his.fits_getElem? hi
  cases hs.symm.trans hnow
  exact ⟨item, next, hi, hst, hf⟩

end Phases

end TagAsm.Select
