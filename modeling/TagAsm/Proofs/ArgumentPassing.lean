import TagAsm.Proofs.StackDepth

/-!
# Caller and callee agree on arguments

The caller counts six argument registers, the first of which carries the address of the result, and pushes the rest. The callee
counts five registers for its parameters and finds the rest above its frame. Here both run one after the other on a
`Processor`: each slot from which the callee copies a parameter holds the address that the caller's argument denotes, and when
the callee returns, and what was pushed is released, the stack pointer and the frame pointer are the caller's again.

For the way back every path through the callee counts. What is needed of it is that its instructions are tame: between the
opening and the closing of the frame they write no more than registers and the frame itself, so the saved frame pointer and the
return address stay where they are (`linked_of_tracks`).
-/

namespace TagAsm.Asm

open Processor List Instruction

/-! ## Tame instructions -/

/-- Instructions that leave the frame pointer alone, move the stack pointer by a known amount, and write no memory but that below
the frame pointer. -/
inductive Instruction.Tame : Instruction → Prop where
  | load {reg : Register} (src : Operand) (hstack : reg ≠ .rsp) (hframe : reg ≠ .rbp) : Tame (.movq src (.quad reg))
  | address {reg : Register} (src : Operand) (hstack : reg ≠ .rsp) (hframe : reg ≠ .rbp) : Tame (.leaq src reg)
  | clear {reg : Register} (hstack : reg ≠ .rsp) (hframe : reg ≠ .rbp) : Tame (.zero reg)
  | keep {off : Int} (reg : Register) (hoffset : off + 8 ≤ 0) : Tame (.movq (.quad reg) (.frame off))
  | push (reg : Register) : Tame (.pushq (.quad reg))
  | grow (amount : Int) : Tame (.subq amount .rsp)
  | shrink (amount : Int) : Tame (.addq amount .rsp)
  | call (tgt : Operand) : Tame (.call tgt)
  | test (size : Option Size) (opds : List Operand) : Tame ⟨.test, size, opds⟩
  | jump {op : Instruction} (h : op.target?.isSome = true) : Tame op

/-- Labels and comments. -/
def Item.isMark : Item → Bool
  | .label _ | .exported _ | .comment _ => true
  | _ => false

/-- An item that leaves the link to the caller alone. -/
def Item.Tame (item : Item) : Prop := item.isMark = true ∨ ∃ op, item = .instruction op ∧ op.Tame

/-! ## The link to the caller -/

/-- Code was entered with the stack pointer at `entry`, where the return address lies, and with the frame pointer at `base`. What
is needed to go back is still there. -/
def Linked (entry base returnAddress : Int) : Extent → Processor → Prop
  | .outside used, p =>
    p.registers .rsp = some (entry - used) ∧ p.memory entry = some returnAddress ∧
      (used = 0 → p.registers .rbp = some base) ∧ (used = 8 → p.memory (entry - 8) = some base)
  | .opened _, p =>
    p.registers .rsp = some (entry - 8) ∧ p.registers .rbp = some (entry - 8) ∧ p.memory entry = some returnAddress ∧
      p.memory (entry - 8) = some base
  | .reserved _ _ distance, p =>
    p.registers .rsp = some (entry - 8 - distance) ∧ p.registers .rbp = some (entry - 8) ∧ p.memory entry = some returnAddress ∧
      p.memory (entry - 8) = some base

/-- What a subroutine does where this is known of the stack: it saves the frame pointer, sets it and reserves its frame; within the
frame it is tame, gives the frame up or ends the process; without it, it restores the frame pointer and returns. -/
def Extent.Regular : Extent → Item → Prop
  | .outside used, item =>
    item.isMark = true ∨ (used = 0 ∧ item = .instruction (.pushq (.quad .rbp))) ∨
      (used = 8 ∧ item = .instruction (.movq (.quad .rsp) (.quad .rbp))) ∨ (used = 8 ∧ item = .instruction (.popq .rbp)) ∨
      (used = 0 ∧ item = .instruction .ret)
  | .opened base, item => base = 8 ∧ ∃ size, item = .instruction (.subq size .rsp)
  | .reserved base _ distance, item =>
    base = 8 ∧ 0 ≤ distance ∧ (item.Tame ∨ item = .instruction (.movq (.quad .rbp) (.quad .rsp)) ∨ item = .instruction ⟨.syscall, none, []⟩)

section

variable {addrs : String → Int} {entry base returnAddress : Int} {p : Processor}

/-- A tame instruction within a frame. -/
theorem linked_of_tame (addrs : String → Int) {base' size distance : Int} {op : Instruction} (hop : op.Tame) (hd : 0 ≤ distance)
    (h : Linked entry base returnAddress (.reserved base' size distance) p) :
    ∃ later, Extent.execute op (.reserved base' size distance) = some (.reserved base' size later) ∧
      Linked entry base returnAddress (.reserved base' size later) (p.execute addrs op) := by
  obtain ⟨hst, hf, hr, hsv⟩ := h
  have hrs : ∀ {reg : Register} (word : Option Int), reg ≠ .rsp → reg ≠ .rbp →
      Linked entry base returnAddress (.reserved base' size distance) (p.put reg word) := by
    intro reg word hne hne'
    refine ⟨?_, ?_, hr, hsv⟩
    · rw [registers_put_of_ne _ _ hne.symm, hst]
    · rw [registers_put_of_ne _ _ hne'.symm, hf]
  have hw : ∀ {addr : Int} (word : Option Int), addr + 8 ≤ entry - 8 →
      Linked entry base returnAddress (.reserved base' size distance) (p.store addr word) := by
    intro addr word ha
    refine ⟨hst, hf, ?_, ?_⟩
    · rw [memory_store_of_apart _ _ (by omega), hr]
    · rw [memory_store_of_apart _ _ (by omega), hsv]
  have hsy : ∀ {next : Processor}, op.growth? = some 0 → op.writes .rbp = false → p.execute addrs op = next →
      Linked entry base returnAddress (.reserved base' size distance) next →
      ∃ later, Extent.execute op (.reserved base' size distance) = some (.reserved base' size later) ∧
        Linked entry base returnAddress (.reserved base' size later) (p.execute addrs op) := by
    intro next hg hk hn hl
    refine ⟨distance, ?_, hn ▸ hl⟩
    rw [Extent.execute_reserved hg hk, Int.add_zero]
  cases hop with
  | load src hne hne' =>
    refine hsy ?_ (decide_eq_false hne') rfl (hrs _ hne hne')
    simp [growth?, movq, writes, destination?, Operand.quad, hne]
  | address src hne hne' =>
    refine hsy ?_ (decide_eq_false hne') rfl (hrs _ hne hne')
    simp [growth?, leaq, writes, destination?, Operand.quad, hne]
  | clear hne hne' =>
    refine hsy ?_ (decide_eq_false hne') rfl (hrs _ hne hne')
    simp [growth?, zero, writes, destination?, hne]
  | keep reg ho => exact hsy rfl rfl (execute_movq_frame hf _ _) (hw _ (by omega))
  | call tgt =>
    obtain ⟨hsm, hsm'⟩ := memory_afterCall hf
    rw [Int.sub_add_cancel] at hsm'
    exact hsy rfl rfl rfl ⟨hst, hf, hsm'.trans hr, hsm.trans hsv⟩
  | test width opds => exact hsy rfl rfl rfl ⟨hst, hf, hr, hsv⟩
  | jump h =>
    obtain ⟨mnemonic, width, opds⟩ := op
    cases mnemonic <;> first | exact hsy rfl rfl rfl ⟨hst, hf, hr, hsv⟩ | cases h
  | push reg =>
    refine ⟨distance + 8, Extent.execute_reserved rfl rfl, ?_⟩
    rw [execute_pushq hst]
    refine ⟨?_, hf, ?_, ?_⟩
    · rw [registers_store, registers_put_self]
      congr 1
      omega
    · rw [memory_store_of_apart _ _ (by omega), memory_put, hr]
    · rw [memory_store_of_apart _ _ (by omega), memory_put, hsv]
  | grow amount =>
    refine ⟨distance + amount, Extent.execute_reserved rfl rfl, ?_⟩
    rw [execute_subq hst]
    refine ⟨?_, hf, hr, hsv⟩
    rw [registers_put_self]
    congr 1
    omega
  | shrink amount =>
    refine ⟨distance + -amount, Extent.execute_reserved rfl rfl, ?_⟩
    rw [execute_addq hst]
    refine ⟨?_, hf, hr, hsv⟩
    rw [registers_put_self]
    congr 1
    omega

/-- The link survives every item after which control goes on. -/
theorem linked_step {extent next : Extent} {item : Item} (hrg : extent.Regular item) (hsp : extent.step item = some next)
    (hg : item.goesOn = true ∨ item.target?.isSome = true) (h : Linked entry base returnAddress extent p) :
    Linked entry base returnAddress next (p.step addrs item) := by
  have hm : item.isMark = true → Linked entry base returnAddress next (p.step addrs item) := by
    intro hm
    cases item with
    | label | exported | comment => exact Option.some.inj hsp ▸ h
    | instruction op => cases hm
    | data contents => cases hm
  cases extent with
  | outside used =>
    rcases hrg with hi | ⟨rfl, rfl⟩ | ⟨rfl, rfl⟩ | ⟨rfl, rfl⟩ | ⟨rfl, rfl⟩
    · exact hm hi
    · -- The frame pointer is saved.
      cases hsp
      obtain ⟨hst, hr, hf, -⟩ := h
      rw [Int.sub_zero] at hst
      rw [step, execute_pushq hst, hf rfl]
      refine ⟨by simp, ?_, by simp, fun _ => memory_store_self _ _ _⟩
      rw [memory_store_of_apart _ _ (by omega), memory_put, hr]
    · cases hsp
      obtain ⟨hst, hr, -, hsv⟩ := h
      exact ⟨hst, hst, hr, hsv rfl⟩
    · -- The saved frame pointer is taken back.
      cases hsp
      obtain ⟨hst, hr, -, hsv⟩ := h
      rw [step, execute_popq hst, hsv rfl]
      refine ⟨?_, hr, fun _ => registers_put_self _ _ _, by simp⟩
      rw [registers_put_of_ne _ _ (by decide), registers_put_self]
      congr 1
      omega
    · rcases hg with hg | hg <;> cases hg
  | opened base' =>
    obtain ⟨rfl, size, rfl⟩ := hrg
    cases hsp
    obtain ⟨hst, hf, hr, hsv⟩ := h
    rw [step, execute_subq hst]
    exact ⟨registers_put_self _ _ _, hf, hr, hsv⟩
  | reserved base' size distance =>
    obtain ⟨rfl, hd, (hi | ⟨op, rfl, hop⟩) | rfl | rfl⟩ := hrg
    · exact hm hi
    · obtain ⟨later, hl, hln⟩ := linked_of_tame addrs hop hd h
      cases hsp.symm.trans hl
      exact hln
    · cases hsp
      obtain ⟨hst, hf, hr, hsv⟩ := h
      exact ⟨hf, hr, by simp, fun _ => hsv⟩
    · rcases hg with hg | hg <;> cases hg

variable {items : List Item} {arrival : Int} {last : Extent} {place : Nat} {q : Processor}

variable (hrg : Passes Extent.step Extent.Regular (.outside 0) items last) (hb : Balanced arrival items)
  (hs : Linked entry base returnAddress (.outside 0) p)
  (h : Tracks (fun p item => some (p.step addrs item)) items p place q)
include hrg hb hs h

/-- The link survives along every path through code that is regular. -/
theorem linked_of_tracks : ∃ extent, Tracks Extent.step items (.outside 0) place extent ∧ Linked entry base returnAddress extent q := by
  induction h with
  | start => exact ⟨.outside 0, .start, hs⟩
  | @flow place goal state next item _ hi hst hf ih =>
    obtain ⟨extent, ht, hln⟩ := ih
    cases hst
    have hsc := hb.paths place extent ht
    obtain ⟨now, hnow, hft⟩ := hrg.fits_getElem? hi
    cases hsc.symm.trans hnow
    obtain ⟨later, hl⟩ := hrg.exists_step hi hsc
    refine ⟨later, .flow ht hi hl hf, linked_step hft hl ?_ hln⟩
    cases hf with
    | next hi' hg =>
      cases hi.symm.trans hi'
      exact Or.inl hg
    | jump hi' htr hlb =>
      cases hi.symm.trans hi'
      exact Or.inr (by rw [htr]; rfl)

/-- When regular code returns, the return address lies at the end of the stack and the frame pointer is the caller's. -/
theorem linked_at_ret (hret : items[place]? = some (.instruction .ret)) :
    q.registers .rsp = some entry ∧ q.registers .rbp = some base ∧ q.memory entry = some returnAddress := by
  obtain ⟨extent, ht, hl⟩ := linked_of_tracks hrg hb hs h
  obtain ⟨now, hnow, hf⟩ := hrg.fits_getElem? hret
  cases (hb.paths place extent ht).symm.trans hnow
  cases extent with
  | outside used =>
    have hu : used = 0 := by
      rcases hf with hi | ⟨-, hi⟩ | ⟨-, hi⟩ | ⟨-, hi⟩ | ⟨hu, -⟩
      · cases hi
      · cases hi
      · cases hi
      · cases hi
      · exact hu
    obtain ⟨hst, hr, hfr, -⟩ := hl
    rw [hu, Int.sub_zero] at hst
    exact ⟨hst, hfr hu, hr⟩
  | opened base' =>
    obtain ⟨-, size, hi⟩ := hf
    cases hi
  | reserved base' size distance =>
    obtain ⟨-, -, (hi | ⟨op, hi, hop⟩) | hi | hi⟩ := hf
    · cases hi
    · cases hi
      cases hop with
      | jump h => cases h
    · cases hi
    · cases hi

end

/-! ## Calls are tame -/

theorem tame_code {ops : List Instruction} (h : ∀ op ∈ ops, op.Tame) : ∀ item ∈ Item.code ops, item.Tame := by
  intro item hi
  obtain ⟨op, hop, rfl⟩ := mem_map.mp hi
  exact Or.inr ⟨op, rfl, h op hop⟩

theorem tame_loadInto (arg : Argument) {reg : Register} (hst : reg ≠ .rsp) (hf : reg ≠ .rbp) : (arg.loadInto reg).Tame := by
  cases arg with
  | value slot =>
    obtain ⟨off, byRef⟩ := slot
    cases byRef with
    | false => exact .address _ hst hf
    | true => exact .load _ hst hf
  | load | immediate => exact .load _ hst hf
  | symbol name => exact .address _ hst hf

theorem tame_callCode (frame : Frame) (args : List Argument) {transfer : List Instruction} (h : ∀ op ∈ transfer, op.Tame) :
    ∀ item ∈ Item.code (frame.callCode args transfer), item.Tame := by
  refine tame_code (forall_mem_callCode frame args (fun arg _ reg hr => ?_) .grow (.push _) .shrink h)
  have hmem : reg ∈ .rax :: Register.arguments := mem_cons.mpr hr
  exact tame_loadInto arg (ne_of_mem_of_not_mem hmem (by decide)) (ne_of_mem_of_not_mem hmem (by decide))

end TagAsm.Asm

namespace TagAsm.Select

open Asm Abi SelectM List Processor
open TagAsm.Flow (SubroutineId ValueId Body Subroutine)

/-! ## Subroutines are regular -/

theorem Transfer.tame (transfer : Transfer) : ∀ op ∈ transfer.code, op.Tame := by
  have hz : (Instruction.zero .rax).Tame := .clear (by decide) (by decide)
  cases transfer with
  | direct sym => exact forall_mem_singleton.mpr (.call _)
  | native sym => exact forall_mem_pair hz (.call _)
  | operation kind receiver =>
    refine forall_mem_append.mpr ⟨forall_mem_append.mpr ⟨?_, ?_⟩, forall_mem_singleton.mpr (.call _)⟩
    · exact forall_mem_singleton.mpr (.load _ (by decide) (by decide))
    · split
      · exact forall_mem_singleton.mpr hz
      · exact forall_mem_nil _

/-- Words are kept below the frame pointer only. -/
def Piece.Below : Piece → Prop
  | .call _ _ => True
  | .store offset => offset + 8 ≤ 0

theorem Piece.tame {frame : Frame} {piece : Piece} (h : piece.Below) : ∀ item ∈ piece.items frame, item.Tame := by
  cases piece with
  | call transfer args => exact tame_callCode frame args transfer.tame
  | store off => exact tame_code (forall_mem_singleton.mpr (.keep _ h))

theorem tame_piecesCode {frame : Frame} {pieces : List Piece} (h : ∀ piece ∈ pieces, piece.Below) :
    ∀ item ∈ piecesCode frame pieces, item.Tame := by
  intro item hi
  obtain ⟨piece, hp, hi⟩ := mem_flatMap.mp hi
  exact Piece.tame (h piece hp) item hi

variable {cx : Context} {rt : Routine} {words : Nat} {syms : SymbolTable}

/-- What a deed keeps lies in the frame. -/
theorem Deed.below {pieces : List Piece} (h : Deed cx rt words syms pieces)
    (hst : ∀ off, rt.Stores words off → off + 8 ≤ 0) : ∀ piece ∈ pieces, piece.Below := by
  cases h with
  | store ho => exact forall_mem_singleton.mpr (hst _ ho)
  | remake ht hsy ha => exact forall_mem_pair trivial trivial
  | _ => exact forall_mem_singleton.mpr trivial

theorem Woven.tame {items : List Item} (h : Woven cx rt words syms items)
    (hst : ∀ off, rt.Stores words off → off + 8 ≤ 0) : ∀ item ∈ items, item.Tame := by
  induction h with
  | nil => exact forall_mem_nil _
  | comment | line | block => exact forall_mem_singleton.mpr (Or.inl rfl)
  | deed hd => exact tame_piecesCode (hd.below hst)
  | jump | leave => exact tame_code (forall_mem_singleton.mpr (.jump rfl))
  | branch pos neg =>
    refine tame_code (forall_mem_cons.mpr ⟨.test _ _, forall_mem_cons.mpr ⟨.jump rfl, ?_⟩⟩)
    exact forall_mem_singleton.mpr (.jump rfl)
  | append _ _ ihfirst ihrest => exact forall_mem_append.mpr ⟨ihfirst, ihrest⟩

namespace Phases

variable {cx : Context} {syms : SymbolTable} {ph : Phases}

/-- The places where a subroutine keeps words lie in its frame. -/
theorem stores_below (ph : Phases) {off : Int} (h : ph.routine.Stores ph.words off) : off + 8 ≤ 0 := by
  rcases h with ⟨id, hsl⟩ | ⟨scratch, place, hsc, hp, rfl⟩
  · exact (inside_of_slot?_withRecords hsl).2
  · have hsp := scratch_span hsc
    have hn := (stacked_slotSpans ph.body).le
    have hh := (hsp.bounds (mem_singleton_self _)).2
    dsimp only at hh
    omega

/-- Where the addresses that arrived in registers are kept. -/
theorem saves_eq (ph : Phases) : ph.saves = ((arrivalSlots ph.body).zip Register.arguments).map
    fun (slot, reg) => .movq (.quad reg) (.frame slot.offset) := by
  rw [arrivalSlots_eq ph.body ph.words]
  rfl

theorem arrivalSlots_below {body : Body} {slot : Slot} (h : slot ∈ arrivalSlots body) : slot.offset + 8 ≤ 0 := by
  have hh := ((stacked_arrivalSlots body).bounds (mem_map_of_mem h)).2
  have hw := slot.le_width_span
  change slot.offset + slot.span.width ≤ -0 at hh
  omega

theorem Proper.tame (h : ph.Proper cx syms) : ∀ item ∈ ph.filling ++ (ph.working ++ ph.emptying), item.Tame := by
  have hl : ∀ role, ∀ item ∈ [Item.label (localLabel ph.symbol role)], item.Tame := fun role => forall_mem_singleton.mpr (Or.inl rfl)
  have hsv : ∀ item ∈ Item.code ph.saves, item.Tame := by
    refine tame_code fun op hop => ?_
    rw [saves_eq] at hop
    obtain ⟨pair, hpr, rfl⟩ := mem_map.mp hop
    exact .keep _ (arrivalSlots_below (of_mem_zip hpr).1)
  have hc : ∀ {frame records pieces}, Copies frame records pieces → ∀ piece ∈ pieces, piece.Below := by
    intro frame records pieces hc
    induction hc with
    | nil => exact forall_mem_nil _
    | cons _ _ ih => exact forall_mem_cons.mpr ⟨trivial, ih⟩
  have hd : ∀ piece ∈ ph.defaults, piece.Below := by
    intro piece hp
    obtain ⟨id, -, slot, helper, args, -, -, -, rfl⟩ := exists_mem_of_forall₂ h.defaults.flip hp
    trivial
  have hdr : ∀ piece ∈ ph.drops, piece.Below := by
    intro piece hp
    obtain ⟨id, -, slot, -, rfl⟩ := exists_mem_of_forall₂ h.drops.flip hp
    trivial
  unfold filling working emptying
  simp only [forall_mem_append]
  exact ⟨⟨hsv, hl _, tame_piecesCode (hc h.copies), hl _, tame_piecesCode hd⟩,
    ⟨h.blocks.tame fun _ => ph.stores_below, hl _⟩, tame_piecesCode hdr, hl _⟩

theorem regular_mark (used : Int) {item : Item} (h : item.isMark = true) :
    Passes Extent.step Extent.Regular (.outside used) [item] (.outside used) := by
  refine .single ?_ (Or.inl h)
  cases item with
  | instruction op => cases h
  | data contents => cases h
  | _ => rfl

theorem regular_opening (ph : Phases) :
    Passes Extent.step Extent.Regular (.outside 0) ph.opening (.reserved 8 ph.frame.size ph.frame.size) := by
  have hl : Passes Extent.step Extent.Regular (.outside 0)
      (Item.exportedLabel ph.symbol ++ [.label (localLabel ph.symbol "entry")]) (.outside 0) :=
    ((regular_mark 0 rfl).append (regular_mark 0 rfl)).append (regular_mark 0 rfl)
  refine hl.append (.cons rfl (Or.inr (Or.inl ⟨rfl, rfl⟩)) (.cons rfl (Or.inr (Or.inr (Or.inl ⟨rfl, rfl⟩))) ?_))
  exact .single rfl ⟨rfl, _, rfl⟩

/-- Within the frame of a subroutine, tame code that moves the stack pointer is regular, and so is the end of the process. -/
theorem regular_of_moves {size : Int} (hsz : 0 ≤ size) {items : List Item} (hm : Moves 8 8 size size items size)
    (ht : ∀ item ∈ items, item.Tame ∨ item = .instruction ⟨.syscall, none, []⟩) :
    Passes Extent.step Extent.Regular (.reserved 8 size size) items (.reserved 8 size size) := by
  refine hm.mono fun item hi state hf => ?_
  obtain ⟨⟨distance, rfl⟩, hle, -⟩ := hf
  exact ⟨rfl, by omega, (ht item hi).imp_right Or.inr⟩

theorem regular_closeFrame (size : Int) (hsz : 0 ≤ size) :
    Passes Extent.step Extent.Regular (.reserved 8 size size) (Item.code Instruction.closeFrame) (.outside (-8)) := by
  refine .cons rfl ⟨rfl, hsz, Or.inr (Or.inl rfl)⟩ (.cons rfl (Or.inr (Or.inr (Or.inr (Or.inl ⟨rfl, rfl⟩)))) ?_)
  exact .single rfl (Or.inr (Or.inr (Or.inr (Or.inr ⟨rfl, rfl⟩))))

theorem Proper.regular (h : ph.Proper cx syms) : ∃ last, Passes Extent.step Extent.Regular (.outside 0) ph.items last := by
  have hsz : 0 ≤ ph.frame.size := Int.le_of_lt ph.size_frame_pos
  obtain ⟨hf, hw, he⟩ := h.stays
  have hi := regular_of_moves hsz (hf.append (hw.append he)) fun item hi => Or.inl (h.tame item hi)
  have hlv := h.leave
  have hit : ph.items = ph.opening ++ ((ph.filling ++ (ph.working ++ ph.emptying))
      ++ (ph.leave ++ [.label (localLabel ph.symbol "exit")])) := by
    rw [items_eq, making, leaving]
    simp only [append_assoc]
  rw [hit]
  generalize ph.leave = leave at hlv ⊢
  rcases hlv.shape with rfl | ⟨pieces, op, rfl, hst, hop⟩
  · exact ⟨_, ph.regular_opening.append (hi.append ((regular_closeFrame _ hsz).append (regular_mark _ rfl)))⟩
  · have hx := (stays_exit ph.frame pieces hop).append (moves_label (localLabel ph.symbol "exit"))
    refine ⟨_, ph.regular_opening.append (hi.append (regular_of_moves hsz hx ?_))⟩
    have hp : ∀ item ∈ piecesCode ph.frame pieces, item.Tame := by
      refine tame_piecesCode fun piece hp => ?_
      cases piece with
      | call => trivial
      | store off => exact absurd hp (hst off)
    have hc : op.Tame := by
      rcases hop with rfl | rfl
      · exact .load _ (by decide) (by decide)
      · exact .clear (by decide) (by decide)
    refine forall_mem_append.mpr ⟨forall_mem_append.mpr ⟨fun item hi => Or.inl (hp item hi), ?_⟩, ?_⟩
    · refine forall_mem_cons.mpr ⟨Or.inl (Or.inr ⟨op, rfl, hc⟩), forall_mem_pair (Or.inl (Or.inr ⟨_, rfl, ?_⟩)) (Or.inr rfl)⟩
      exact .load _ (by decide) (by decide)
    · exact forall_mem_singleton.mpr (Or.inl (Or.inl rfl))

end Phases

/-! ## The callee keeps what arrived -/

section

variable {addrs : String → Int} {p q : Processor}

/-- Registers are kept in slots that lie one below the other. -/
theorem executeAll_saves (addrs : String → Int) {base : Int} {pairs : List (Slot × Register)} (hbs : q.registers .rbp = some base)
    (hap : pairs.Pairwise fun above below => below.1.offset + 8 ≤ above.1.offset) :
    let r := q.executeAll addrs (pairs.map fun (slot, reg) => .movq (.quad reg) (.frame slot.offset))
    r.registers = q.registers ∧ (∀ addr, (∀ pair ∈ pairs, base + pair.1.offset + 8 ≤ addr) → r.memory addr = q.memory addr) ∧
      ∀ pair ∈ pairs, r.memory (base + pair.1.offset) = q.registers pair.2 := by
  induction pairs generalizing q with
  | nil => exact ⟨rfl, fun _ _ => rfl, forall_mem_nil _⟩
  | cons pair rest ih =>
    obtain ⟨slot, reg⟩ := pair
    obtain ⟨hbl, hrt⟩ := pairwise_cons.mp hap
    have hn : (q.store (base + slot.offset) (q.registers reg)).registers .rbp = some base := hbs
    obtain ⟨hrs, hm, hk⟩ := ih hn hrt
    intro r
    have hr : r = (q.store (base + slot.offset) (q.registers reg)).executeAll addrs
        (rest.map fun (slot, reg) => .movq (.quad reg) (.frame slot.offset)) := by
      unfold r
      rw [map_cons, executeAll_cons, execute_movq_frame hbs]
    rw [hr]
    refine ⟨hrs, fun addr ha => ?_, forall_mem_cons.mpr ⟨?_, hk⟩⟩
    · obtain ⟨hf, hos⟩ := forall_mem_cons.mp ha
      rw [hm addr hos, memory_store_of_apart _ _ (Or.inr hf)]
    · rw [hm _ fun other ho => ?_, memory_store_self]
      have hl : other.1.offset + 8 ≤ slot.offset := hbl other ho
      change base + other.1.offset + 8 ≤ base + slot.offset
      omega

/-- Code with a prologue was entered with the stack pointer at `entry`. What lies there and above is as it was, and what the argument
registers hold is kept in the slots for it. -/
structure Arrived (ph : Phases) (entry : Int) (p r : Processor) : Prop where
  frame : r.registers .rbp = some (entry - 8)
  stack : r.registers .rsp = some (entry - 8 - ph.frame.size)
  above : ∀ addr, entry ≤ addr → r.memory addr = p.memory addr
  kept : ∀ (place : Nat) (slot : Slot) (reg : Register), (arrivalSlots ph.body)[place]? = some slot →
    Register.arguments[place]? = some reg → r.memory (entry - 8 + slot.offset) = p.registers reg

/-- The frame pointer is saved and set, and the frame is reserved. -/
theorem pass_opening (ph : Phases) {entry : Int} (he : p.registers .rsp = some entry) :
    p.pass addrs ph.opening = (((p.put .rsp (some (entry - 8))).store (entry - 8) (p.registers .rbp)).put .rbp
      (some (entry - 8))).put .rsp (some (entry - 8 - ph.frame.size)) := by
  have hm : p.pass addrs (Item.exportedLabel ph.symbol ++ [.label (localLabel ph.symbol "entry")]) = p := rfl
  have hset : ∀ q : Processor, q.execute addrs (.movq (.quad .rsp) (.quad .rbp)) = q.put .rbp (q.registers .rsp) := fun _ => rfl
  unfold Phases.opening
  rw [pass_append, hm, pass_code, executeAll_append]
  unfold Instruction.openFrame
  simp only [executeAll_cons, executeAll_nil]
  rw [execute_pushq he, hset, registers_store, registers_put_self]
  exact execute_subq (by simp [registers_put_of_ne]) _

/-- The slots for what arrives in registers do not overlap. -/
theorem pairwise_arrivals (body : Body) : ((arrivalSlots body).zip Register.arguments).Pairwise fun above below =>
    below.1.offset + 8 ≤ above.1.offset := by
  have hsl : (arrivalSlots body).Pairwise fun above below => below.offset + 8 ≤ above.offset := by
    refine (pairwise_map.mp (stacked_arrivalSlots body).pairwise).imp fun {above below} hsp => ?_
    have hw := below.le_width_span
    change below.offset + below.span.width ≤ above.offset at hsp
    omega
  have hf : (((arrivalSlots body).zip Register.arguments).map Prod.fst).Pairwise fun above below => below.offset + 8 ≤ above.offset := by
    rw [zip_eq_zip_take_min, map_fst_zip (by simp)]
    exact hsl.sublist (take_sublist _ _)
  exact pairwise_map.mp hf

theorem arrived_pass (ph : Phases) {entry : Int} (he : p.registers .rsp = some entry) :
    Arrived ph entry p (p.pass addrs (entryCode ph.symbol ph.layout)) := by
  have ho : ∃ q, p.pass addrs ph.opening = q ∧ q.registers .rbp = some (entry - 8) ∧ q.registers .rsp = some (entry - 8 - ph.frame.size) ∧
      (∀ addr, entry ≤ addr → q.memory addr = p.memory addr) ∧
      ∀ reg ∈ Register.arguments, q.registers reg = p.registers reg := by
    refine ⟨_, pass_opening ph he, by simp [registers_put_of_ne], registers_put_self _ _ _, fun addr ha => ?_, ?_⟩
    · rw [memory_put, memory_put, memory_store_of_apart _ _ (by omega), memory_put]
    · intro reg hr
      have hst : reg ≠ .rsp := ne_of_mem_of_not_mem hr (by decide)
      rw [registers_put_of_ne _ _ hst, registers_put_of_ne _ _ (ne_of_mem_of_not_mem hr (by decide)),
        registers_store, registers_put_of_ne _ _ hst]
  obtain ⟨q, hq, hf, hst, hab, hrs⟩ := ho
  obtain ⟨hsm, hm, hk⟩ := executeAll_saves addrs hf (pairwise_arrivals ph.body)
  rw [Phases.entryCode_eq, pass_append, hq, pass_code, Phases.saves_eq]
  refine ⟨by rw [hsm, hf], by rw [hsm, hst], fun addr ha => ?_, fun place slot reg hsl hr => ?_⟩
  · rw [hm addr fun pair hp => ?_, hab addr ha]
    have hbl := Phases.arrivalSlots_below (of_mem_zip hp).1
    omega
  · have hp : (slot, reg) ∈ (arrivalSlots ph.body).zip Register.arguments := mem_of_getElem? (getElem?_zip_eq_some.mpr ⟨hsl, hr⟩)
    rw [hk (slot, reg) hp, hrs reg (mem_of_getElem? hr)]

end

/-- A call of a subroutine that is not native passes the address of the result, and those of the arguments. -/
theorem callCode_direct {before : SymbolTable} (res : ValueId) {callee : SubroutineId} (args : List ValueId)
    {sub : Subroutine} (hc : cx.program.subroutines[callee]? = some sub)
    (hf : sub.isForeign = false) :
    Leaves before (callCode cx rt res callee args) (fun items now => ∃ passed sym,
      Forall₂ (IsValue rt.frame) (res :: args) passed ∧ now.subroutine? callee = some sym ∧
      items = callDirect rt.frame sym passed) := by
  refine Selects.leaves fun kept => (callCode_selects False.elim False.elim False.elim).imp fun items _ hi => ?_
  cases hi.1 with
  | direct _ _ hp hsy => exact ⟨_, _, hp, hsy, rfl⟩
  | native hfn hn _ =>
    cases hc.symm.trans hfn
    rw [hf] at hn
    cases hn

/-! ## The whole call -/

/-- What is known when the callee is entered: the arguments are in place, and the return address was pushed. -/
def enter (addrs : String → Int) (call : CallFrame) (passed : List Argument) (p : Processor) (returnAddress : Int) : Processor :=
  (p.executeAll addrs (marshalCode call passed)).push (some returnAddress)

/-- What is known once the callee has reserved its frame and kept what arrived. -/
def arrive (addrs : String → Int) (call : CallFrame) (passed : List Argument) (ph : Phases) (p : Processor)
    (returnAddress : Int) : Processor :=
  (enter addrs call passed p returnAddress).pass addrs (entryCode ph.symbol ph.layout)

/-- Caller and callee agree. -/
structure HandsOver (addrs : String → Int) (call : CallFrame) (passed : List Argument) (ph : Phases) (p : Processor)
    (returnAddress : Int) : Prop where
  /-- The slot of the callee's return value holds the address that was passed for the result. -/
  result : ∀ arg pointer, passed[0]? = some arg → arg.denotes addrs p = some pointer →
    ∃ base slot, (arrive addrs call passed ph p returnAddress).registers .rbp = some base ∧
      ph.frame.slot? ph.body.returnValue = some slot ∧ slot.byReference = true ∧
      (arrive addrs call passed ph p returnAddress).memory (base + slot.offset) = some pointer
  /-- The slot from which a parameter is copied holds the address that the argument denotes. -/
  parameters : ∀ place arg pointer, passed[place + 1]? = some arg → arg.denotes addrs p = some pointer →
    ∃ base record src, (arrive addrs call passed ph p returnAddress).registers .rbp = some base ∧
      ph.copies[place]? = some (.call (.operation .copy .rsi) [.value record, .value src]) ∧ src.byReference = true ∧
      (arrive addrs call passed ph p returnAddress).memory (base + src.offset) = some pointer
  /-- Whatever path the callee takes, it goes back to the return address, and after the release the pointers are the caller's. -/
  returns : ∀ place q, Tracks (fun p item => some (p.step addrs item)) ph.items (enter addrs call passed p returnAddress)
      place q → ph.items[place]? = some (.instruction .ret) →
    q.pop.1 = some returnAddress ∧ (q.pop.2.executeAll addrs (releaseCode call)).registers .rsp = p.registers .rsp ∧
      (q.pop.2.executeAll addrs (releaseCode call)).registers .rbp = p.registers .rbp

section

variable {addrs : String → Int} {p : Processor} {base top returnAddress : Int} {call : CallFrame} {passed : List Argument}

/-- What is known when the callee is entered. -/
theorem enter_eq (hmarshalled : Marshalled addrs p top call passed (p.executeAll addrs (marshalCode call passed))) :
    enter addrs call passed p returnAddress = ((p.executeAll addrs (marshalCode call passed)).put .rsp
      (some (top - call.total - 8))).store (top - call.total - 8) (some returnAddress) := by
  unfold enter push
  rw [hmarshalled.stack]

/-- The return address lies at the end of the stack then. -/
theorem registers_enter (hmarshalled : Marshalled addrs p top call passed (p.executeAll addrs (marshalCode call passed))) :
    (enter addrs call passed p returnAddress).registers .rsp = some (top - call.total - 8) := by
  rw [enter_eq hmarshalled, registers_store, registers_put_self]

variable {cx : Context} {syms : SymbolTable} {ph : Phases} {place : Nat}

theorem returns_of_marshalled (hp : ph.Proper cx syms) (hbs : p.registers .rbp = some base)
    (htop : p.registers .rsp = some top) (ht : 0 ≤ call.total)
    (hmarshalled : Marshalled addrs p top call passed (p.executeAll addrs (marshalCode call passed))) {q : Processor}
    (h : Tracks (fun p item => some (p.step addrs item)) ph.items (enter addrs call passed p returnAddress) place q)
    (hret : ph.items[place]? = some (.instruction .ret)) :
    q.pop.1 = some returnAddress ∧ (q.pop.2.executeAll addrs (releaseCode call)).registers .rsp = p.registers .rsp ∧
      (q.pop.2.executeAll addrs (releaseCode call)).registers .rbp = p.registers .rbp := by
  obtain ⟨last, hrg⟩ := hp.regular
  have hs : Linked (top - call.total - 8) base returnAddress (.outside 0) (enter addrs call passed p returnAddress) := by
    rw [enter_eq hmarshalled]
    refine ⟨by simp, memory_store_self _ _ _, fun _ => ?_, by simp⟩
    rw [registers_store, registers_put_of_ne _ _ (by decide), hmarshalled.frame, hbs]
  obtain ⟨hst, hf, hr⟩ := linked_at_ret hrg hp.balanced hs h hret
  have hpop : q.pop = (some returnAddress, q.put .rsp (some (top - call.total))) := by
    unfold pop
    rw [hst]
    dsimp only
    rw [hr, Int.sub_add_cancel]
  rw [hpop, executeAll_releaseCode ht (registers_put_self _ _ _)]
  refine ⟨rfl, ?_, ?_⟩
  · rw [registers_put_self, htop]
  · rw [registers_put_of_ne _ _ (by decide), registers_put_of_ne _ _ (by decide), hf, hbs]

variable {arg : Argument}

section

variable (hmarshalled : Marshalled addrs p top call passed (p.executeAll addrs (marshalCode call passed)))
include hmarshalled

/-- What arrives in a register is kept. -/
theorem memory_arrive_register {slot : Slot} (hsl : (arrivalSlots ph.body)[place]? = some slot)
    (ha : passed[place]? = some arg) (hp : place < Register.arguments.length) :
    (arrive addrs call passed ph p returnAddress).memory (top - call.total - 8 - 8 + slot.offset) = arg.denotes addrs p := by
  have hr : Register.arguments[place]? = some Register.arguments[place] := getElem?_eq_getElem hp
  generalize Register.arguments[place] = reg at hr
  have hne : reg ≠ .rsp := ne_of_mem_of_not_mem (mem_of_getElem? hr) (by decide)
  rw [arrive, (arrived_pass ph (registers_enter hmarshalled)).kept place slot reg hsl hr, enter_eq hmarshalled, registers_store,
    registers_put_of_ne _ _ hne, hmarshalled.registers place arg reg ha hr]

/-- What arrives on the stack is where it was pushed. -/
theorem memory_arrive_stack (ha : passed[Register.arguments.length + place]? = some arg) :
    (arrive addrs call passed ph p returnAddress).memory (top - call.total + 8 * (place : Nat)) = arg.denotes addrs p := by
  rw [arrive, (arrived_pass ph (registers_enter hmarshalled)).above _ (by omega), enter_eq hmarshalled,
    memory_store_of_apart _ _ (by omega), memory_put, hmarshalled.pushed place arg ha]

theorem registers_arrive : (arrive addrs call passed ph p returnAddress).registers .rbp = some (top - call.total - 8 - 8) :=
  (arrived_pass ph (registers_enter hmarshalled)).frame

/-- Where parameters arrive, the two sides agree: five in registers, after the result, and the rest above the return address. -/
theorem memory_arrive_parameter (ha : passed[place + 1]? = some arg) (hlt : place < ph.body.parameters.length) :
    (arrive addrs call passed ph p returnAddress).memory (top - call.total - 8 - 8 + (arrivalSlot place).offset) =
      arg.denotes addrs p := by
  unfold arrivalSlot
  by_cases hp : place < Register.arguments.length - 1
  · rw [if_pos hp]
    have hc : place + 1 < (ph.body.returnValue :: registerParameters ph.body).length := by
      rw [length_cons, registerParameters, length_take]
      omega
    have hsl : (arrivalSlots ph.body)[place + 1]? = some ⟨-16 * (place + 2 : Nat), true⟩ := by
      rw [arrivalSlots, getElem?_newSlots _ _ hc]
      have he : Frame.empty.size = 0 := rfl
      congr 2
      omega
    exact memory_arrive_register hmarshalled hsl ha (by omega)
  · rw [if_neg hp]
    have hsix : Register.arguments.length = 6 := rfl
    have hpl : Register.arguments.length + (place - (Register.arguments.length - 1)) = place + 1 := by omega
    have hps : passed[Register.arguments.length + (place - (Register.arguments.length - 1))]? = some arg := by
      rw [hpl, ha]
    rw [← memory_arrive_stack hmarshalled hps]
    congr 1
    dsimp only
    omega

end

/-- What is brought into place for a call arrives in a callee with different values and as many parameters. -/
theorem handsOver_of_marshalled (hpo : ph.Proper cx syms) (hd : Distinct ph.body)
    (hl : passed.length = ph.body.parameters.length + 1) (hbs : p.registers .rbp = some base)
    (htop : p.registers .rsp = some top) (ht : 0 ≤ call.total)
    (hmarshalled : Marshalled addrs p top call passed (p.executeAll addrs (marshalCode call passed))) :
    HandsOver addrs call passed ph p returnAddress := by
  refine ⟨fun arg pointer ha hp => ?_, fun place arg pointer ha hp => ?_, fun place q h hret => ?_⟩
  · have hsl : (arrivalSlots ph.body)[0]? = some (Frame.empty.nextSlot true) := rfl
    have hf := hd.slots ph.words
    rw [valueSlots, forall₂_cons] at hf
    refine ⟨_, _, registers_arrive hmarshalled, hf.1, rfl, ?_⟩
    rw [memory_arrive_register hmarshalled hsl ha (by decide), hp]
  · have hlt : place < ph.body.parameters.length := by
      have := (List.getElem?_eq_some_iff.mp ha).1
      omega
    have hk := records_layoutOf ph.body ph.words
    have hn : (ph.layout.records.map Prod.fst).Nodup := hk ▸ hd.parts.1
    have hpr : (ph.layout.records.map Prod.fst)[place]? = some ph.body.parameters[place] := by
      rw [Phases.layout, hk, getElem?_eq_getElem hlt]
    rw [getElem?_map] at hpr
    obtain ⟨⟨param, record⟩, hr, hsm⟩ := Option.map_eq_some_iff.mp hpr
    obtain ⟨piece, hpc, src, hsr, rfl⟩ := getElem?_of_forall₂ (hpo.copies.forall₂ hn) hr
    have har : ph.layout.frame.slot? param = some (arrivalSlot place) := by
      refine hd.slot?_parameter ph.words ?_
      rw [getElem?_eq_getElem hlt, ← hsm]
    cases hsr.symm.trans har
    refine ⟨_, record, _, registers_arrive hmarshalled, hpc, ?_, ?_⟩
    · unfold arrivalSlot
      split <;> rfl
    · rw [memory_arrive_parameter hmarshalled ha hlt, hp]
  · exact returns_of_marshalled hpo hbs htop ht hmarshalled h hret

end

/-- In every call of a subroutine that is not native, with as many arguments as the callee has parameters, each parameter finds the
address of its argument and the return value finds the address of the result; and when the callee has returned and the
arguments are released, the stack pointer and the frame pointer are as they were. -/
theorem callCode_handsOver (addresses : String → Int) (context : Context) (routine : Routine) (caller : Body) (words : Nat)
    (hframe : routine.frame = withRecords (layoutOf caller words).frame (layoutOf caller words).records)
    (result : ValueId) (callee : SubroutineId) (arguments : List ValueId) (subroutine : Subroutine) (body : Body)
    (hcallee : context.program.subroutines[callee]? = some subroutine) (hforeign : subroutine.isForeign = false)
    (hdistinct : Distinct body) (hlength : body.parameters.length = arguments.length)
    (kept later : Selection) (items : List Item)
    (hcall : ((EmitM.call context routine.scratch result callee arguments).code routine.frame).run.run kept = .ok (.ok items, later))
    (before after : Selection) (symbol : String) (code : List Item) (frame : Frame)
    (hcode : (subroutineCode context callee subroutine body symbol).run.run before = .ok (.ok (code, frame), after))
    (hsymbol : later.symbols.subroutine? callee = some symbol)
    (p : Processor) (base returnAddress : Int) (hbase : p.registers .rbp = some base)
    (htop : p.registers .rsp = some (base - routine.frame.size)) :
    ∃ passed call phases, List.Forall₂ (IsValue routine.frame) (result :: arguments) passed ∧
      items = Item.code (marshalCode call passed ++ [.call (.symbol symbol)] ++ releaseCode call) ∧
      phases.Proper context after.symbols ∧ phases.symbol = symbol ∧ phases.body = body ∧ code = phases.items ∧
      HandsOver addresses call passed phases p returnAddress := by
  rw [(EmitM.call_writes context routine result callee arguments).code_eq] at hcall
  obtain ⟨-, hitems⟩ := callCode_direct result arguments hcallee hforeign _ _ _ (SymbolTable.Within.refl _) hcall
  obtain ⟨passed, name, hpassed, hname, hitems⟩ := hitems _ rfl
  obtain rfl := Option.some.inj (hname.symm.trans hsymbol)
  obtain ⟨-, hphases⟩ := subroutineCode_leaves _ _ _ _ _ _ _ (SymbolTable.Within.refl _) hcode
  obtain ⟨phases, hproper, hsame, rfl, hresult⟩ := hphases _ rfl
  obtain ⟨rfl, -⟩ := Prod.mk.inj hresult
  have hreads : ∀ argument ∈ passed, argument.ReadsAbove (base - routine.frame.size - base) := by
    intro argument hargument
    obtain ⟨id, -, slot, hslot, rfl⟩ := exists_mem_of_forall₂ hpassed.flip hargument
    obtain ⟨offset, byReference⟩ := slot
    cases byReference with
    | false => trivial
    | true =>
      have hlow := (inside_of_slot?_withRecords (hframe ▸ hslot)).1
      rw [← size_withRecords _ (layoutOf caller words).records, ← hframe] at hlow
      change base - routine.frame.size - base ≤ offset
      change -routine.frame.size ≤ offset at hlow
      omega
  have hmarshalled : Marshalled addresses p _ (.ofArguments routine.frame.size passed) passed _ :=
    marshalled_executeAll hbase htop (CallFrame.dvd_ofArguments _ _).2.1 rfl hreads
  have hcount : passed.length = phases.body.parameters.length + 1 := by
    rw [← hpassed.length_eq, length_cons, hlength]
  exact ⟨passed, _, phases, hpassed, hitems, hproper, hsame, rfl, rfl,
    handsOver_of_marshalled hproper hdistinct hcount hbase htop (CallFrame.total_nonneg _ _) hmarshalled⟩

/-- A body with eight parameters, three of which arrive on the stack. -/
def octet : Body where
  returnValue := 0
  parameters := [1, 2, 3, 4, 5, 6, 7, 8]
  locals := []
  temporaries := []
  values := (List.range 9).map fun id => ⟨id, none, 1⟩
  blocks := [⟨[], .sink, []⟩]
  entry := 0
  sink := 0

/-- A body that can call it: with its return value, which is an address, one parameter and one temporary. -/
def octetCaller : Body where
  returnValue := 0
  parameters := [1]
  locals := []
  temporaries := [2]
  values := (List.range 3).map fun id => ⟨id, none, 1⟩
  blocks := [⟨[], .sink, []⟩]
  entry := 0
  sink := 0

def octetSubroutine : Subroutine := ⟨⟨"octet", .unknown⟩, 0, .internal, none, .defined octet⟩

def octetContext : Context where
  program := {
    files := []
    types := ⟨[.function [1, 1, 1, 1, 1, 1, 1, 1] 1, .dynamic, .function [1] 1]⟩
    classNames := []
    subroutines := [octetSubroutine, ⟨⟨"main", .unknown⟩, 2, .internal, none, .defined octetCaller⟩]
    defined := [0, 1]
    declared := []
    imported := []
    methods := []
    classes := []
    literals := []
    entry := none }
  debugInfo := false
  colored := false

def octetRoutine : Routine :=
  ⟨1, "main", octetCaller, withRecords (layoutOf octetCaller 0).frame (layoutOf octetCaller 0).records, none⟩

/-- The caller under way. Every word of memory holds its own address. -/
def octetProcessor : Processor where
  registers
    | .rbp => some 4096
    | .rsp => some (4096 - octetRoutine.frame.size)
    | _ => none
  memory := some

/-- The eight arguments mix values in the frame with one that is held by address. -/
theorem callCode_handsOver_octet : let kept : Selection := ⟨⟨["octet", "main"], [], [], [], []⟩, [], [], []⟩
    Distinct octet ∧ ∃ items later code frame after,
      (callCode octetContext octetRoutine 2 0 [1, 0, 2, 1, 0, 2, 1, 0]).run.run kept = .ok (.ok items, later) ∧
      (subroutineCode octetContext 0 octetSubroutine octet "octet").run.run kept = .ok (.ok (code, frame), after) ∧
      later.symbols.subroutine? 0 = some "octet" ∧
      ∃ passed call phases, List.Forall₂ (IsValue octetRoutine.frame) [2, 1, 0, 2, 1, 0, 2, 1, 0] passed ∧
        items = Item.code (marshalCode call passed ++ [.call (.symbol "octet")] ++ releaseCode call) ∧
        phases.Proper octetContext after.symbols ∧ phases.symbol = "octet" ∧ phases.body = octet ∧ code = phases.items ∧
        HandsOver (fun _ => 0) call passed phases octetProcessor 65536 := by
  intro kept
  have hdistinct : Distinct octet := by
    unfold Distinct
    decide
  have hcalling : ∃ items later, (callCode octetContext octetRoutine 2 0 [1, 0, 2, 1, 0, 2, 1, 0]).run.run kept = .ok (.ok items, later) ∧
      later.symbols.subroutine? 0 = some "octet" :=
    ⟨_, _, rfl, rfl⟩
  have hcalled : ∃ code frame after,
      (subroutineCode octetContext 0 octetSubroutine octet "octet").run.run kept = .ok (.ok (code, frame), after) :=
    ⟨_, _, _, rfl⟩
  obtain ⟨items, later, hcall, hsymbol⟩ := hcalling
  obtain ⟨code, frame, after, hcode⟩ := hcalled
  refine ⟨hdistinct, items, later, code, frame, after, hcall, hcode, hsymbol, ?_⟩
  exact callCode_handsOver (fun _ => 0) octetContext octetRoutine octetCaller 0 rfl 2 0 [1, 0, 2, 1, 0, 2, 1, 0] octetSubroutine octet
    rfl rfl hdistinct rfl kept later items hcall kept after "octet" code frame hcode hsymbol octetProcessor 4096 65536 rfl rfl

end TagAsm.Select
