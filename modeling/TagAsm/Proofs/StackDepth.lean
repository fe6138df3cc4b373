import TagAsm.Proofs.Assembling
import TagAsm.Proofs.Geometry
import TagAsm.Proofs.Marshalling
import TagAsm.Proofs.Paths
import TagAsm.Proofs.Reporting

/-!
# The stack is balanced

Emitted code is followed item by item, and what is kept track of is how far the stack pointer is below the frame pointer. From
the instruction that reserves the frame up to the one that gives it up, the distance is the size of the frame at every label
and every jump, is never less in between, and is a multiple of 16 at every call (`Extent.Fits`). So it is the same along every
path. Calls are the reason for all movements in between: padding and pushed arguments keep the stack aligned at the call, and
are released after it (`passes_callCode`).
-/

namespace TagAsm.Asm

/-! ## What instructions do to the stack pointer -/

namespace Instruction

/-- What an instruction writes to. -/
def destination? (op : Instruction) : Option Operand :=
  match op.mnemonic with
  | .mov | .lea | .add | .sub | .xor | .pop => op.operands.getLast?
  | _ => none

/-- Whether an instruction writes to a register, or to a part of it. -/
def writes (reg : Register) (op : Instruction) : Bool :=
  match op.destination? with
  | some (.register written _) => written = reg
  | _ => false

/-- By how many bytes an instruction grows the stack, if that can be said. A call that returns leaves the stack as it was. -/
def growth? (op : Instruction) : Option Int :=
  match op.mnemonic, op.operands with
  | .sub, [.immediate bytes, .register .rsp .quad] => some bytes
  | .add, [.immediate bytes, .register .rsp .quad] => some (-bytes)
  | .push, _ => some 8
  | .ret, _ => some (-8)
  | .pop, _ => if op.writes .rsp then none else some (-8)
  | _, _ => if op.writes .rsp then none else some 0

end Instruction

/-- What is known of the stack. -/
inductive Extent where
  /-- There is no frame: `used` bytes were pushed since the code was entered. -/
  | outside (used : Int)
  /-- The frame pointer is `base` bytes below where the stack pointer was in the beginning, and so is the stack pointer. -/
  | opened (base : Int)
  /-- A frame of `size` bytes is reserved, and the stack pointer is `distance` bytes below the frame pointer. -/
  | reserved (base size distance : Int)
  deriving DecidableEq, Repr

namespace Extent

/-- What is known after an instruction. Where the stack pointer or the frame pointer is changed in other ways, nothing is. -/
def execute (op : Instruction) : Extent → Option Extent
  | outside used => op.growth?.map fun bytes => if op = .movq (.quad .rsp) (.quad .rbp) then opened used else outside (used + bytes)
  | opened base =>
    match op.mnemonic, op.operands with
    | .sub, [.immediate bytes, .register .rsp .quad] => some (reserved base bytes bytes)
    | _, _ => none
  | reserved base size distance =>
    if op = .movq (.quad .rbp) (.quad .rsp) then some (outside base)
    else if op.writes .rbp then none
    else op.growth?.map fun bytes => reserved base size (distance + bytes)

/-- What is known after an item. -/
def step (extent : Extent) : Item → Option Extent
  | .instruction op => extent.execute op
  | .data _ => none
  | _ => some extent

/-- The item may stand where this is known of the stack, in code that is entered with the stack pointer `arrival` bytes above a
multiple of 16. There are no calls and no jumps without a frame, and the code returns when nothing is left on the stack. In a
frame, labels and jumps find the stack pointer where the frame ends, calls find it at a multiple of 16, and it is never above the
end of the frame. -/
def Fits (arrival : Int) : Extent → Item → Prop
  | outside used, item =>
    item.target? = none ∧ ∀ op, item = .instruction op → op.mnemonic ≠ .call ∧ (op.mnemonic = .ret → used = 0)
  | opened _, item => ∃ size, item = .instruction (.subq size .rsp)
  | reserved base size distance, item =>
    size ≤ distance ∧ (item.isJoint = true → distance = size) ∧
      ∀ op, item = .instruction op → op.mnemonic ≠ .ret ∧ (op.mnemonic = .call → 16 ∣ distance ∧ 16 ∣ arrival - base - distance)

end Extent

/-- The stack is balanced in the code. Each item fits what is known of the stack when the items are passed in their order, and
the same is known along every path: none is lost, and all that come to an item agree. -/
structure Balanced (arrival : Int) (items : List Item) : Prop where
  fits : ∀ place item, items[place]? = some item →
    ∃ extent, scan Extent.step (.outside 0) (items.take place) = some extent ∧ extent.Fits arrival item
  paths : ∀ place extent, Tracks Extent.step items (.outside 0) place extent →
    scan Extent.step (.outside 0) (items.take place) = some extent
  followed : ∀ place goal extent, Tracks Extent.step items (.outside 0) place extent → Flows items place goal →
    ∃ next, Tracks Extent.step items (.outside 0) goal next

/-! ## Code within a frame -/

/-- The item fits, and is passed within this frame. -/
def Extent.FitsWithin (arrival base size : Int) (extent : Extent) (item : Item) : Prop :=
  (∃ distance, extent = .reserved base size distance) ∧ extent.Fits arrival item

/-- Within a frame, passing the items takes the stack pointer from one distance to the other. -/
abbrev Moves (arrival base size distance : Int) (items : List Item) (later : Int) : Prop :=
  Passes Extent.step (Extent.FitsWithin arrival base size) (.reserved base size distance) items (.reserved base size later)

/-- The instruction leaves the stack pointer and the frame pointer alone, and control goes on. -/
structure Instruction.Still (op : Instruction) : Prop where
  growth : op.growth? = some 0
  keeps : op.writes .rbp = false
  target : op.target? = none
  ret : op.mnemonic ≠ .ret

section

variable {arrival base size distance : Int} {op : Instruction} {bytes : Int}

/-- Within a frame, an instruction moves the stack pointer by as much as it grows the stack. -/
theorem Extent.execute_reserved (hg : op.growth? = some bytes) (hk : op.writes .rbp = false) :
    execute op (.reserved base size distance) = some (.reserved base size (distance + bytes)) := by
  have ho : op ≠ .movq (.quad .rbp) (.quad .rsp) := by
    intro h
    rw [h] at hg
    cases hg
  simp [execute, ho, hk, hg]

/-- An instruction may stand within a frame if it does not return, jumps from the end of the frame only, and calls from a multiple
of 16 only. -/
theorem fitsWithin_instruction (hle : size ≤ distance) (hj : op.target?.isSome = true → distance = size) (hret : op.mnemonic ≠ .ret)
    (hc : op.mnemonic = .call → 16 ∣ distance ∧ 16 ∣ arrival - base - distance) :
    (Extent.reserved base size distance).FitsWithin arrival base size (.instruction op) := by
  refine ⟨⟨distance, rfl⟩, hle, hj, fun other ho => ?_⟩
  cases ho
  exact ⟨hret, hc⟩

/-- An instruction that grows the stack, or shrinks it. -/
theorem moves_of_growth (hle : size ≤ distance) (hg : op.growth? = some bytes) (hk : op.writes .rbp = false)
    (ht : op.target? = none) (hret : op.mnemonic ≠ .ret) (hc : op.mnemonic ≠ .call) :
    Moves arrival base size distance (Item.code [op]) (distance + bytes) :=
  .single (Extent.execute_reserved hg hk) (fitsWithin_instruction hle (by simp [ht]) hret fun h => absurd h hc)

/-- An instruction that leaves the stack alone. -/
theorem Instruction.Still.moves (h : op.Still) (hle : size ≤ distance) (hc : op.mnemonic ≠ .call) :
    Moves arrival base size distance (Item.code [op]) distance := by
  have hm : Moves arrival base size distance (Item.code [op]) (distance + 0) := moves_of_growth hle h.growth h.keeps h.target h.ret hc
  rwa [Int.add_zero] at hm

/-! ## Calls -/

/-- Words are put into registers other than those of the stack. -/
theorem still_of_writes (hm : op.mnemonic = .mov ∨ op.mnemonic = .lea ∨ op.mnemonic = .xor) (hs : op.writes .rsp = false)
    (hf : op.writes .rbp = false) : op.Still ∧ op.mnemonic ≠ .call := by
  rcases hm with h | h | h <;>
    exact ⟨⟨by simp [Instruction.growth?, h, hs], hf, by simp [Instruction.target?, h], by simp [h]⟩, by simp [h]⟩

theorem still_loadInto (arg : Argument) {reg : Register} (hs : reg ≠ .rsp) (hf : reg ≠ .rbp) :
    (arg.loadInto reg).Still ∧ (arg.loadInto reg).mnemonic ≠ .call := by
  match arg with
  | .value ⟨_, true⟩ | .load _ | .immediate _ =>
    exact still_of_writes (Or.inl rfl) (decide_eq_false hs) (decide_eq_false hf)
  | .value ⟨_, false⟩ | .symbol _ =>
    exact still_of_writes (Or.inr (Or.inl rfl)) (decide_eq_false hs) (decide_eq_false hf)

theorem moves_pushes (hle : size ≤ distance) (args : List Argument) :
    Moves arrival base size distance (Item.code (args.flatMap pushArgument)) (distance + 8 * (args.length : Nat)) := by
  induction args generalizing distance with
  | nil => simpa [Item.code] using Passes.nil _
  | cons arg rest ih =>
    obtain ⟨hs, hc⟩ := still_loadInto arg (by decide : Register.rax ≠ .rsp) (by decide)
    have hld : Moves arrival base size distance (Item.code [arg.loadInto .rax]) distance := hs.moves hle hc
    have hp : Moves arrival base size distance (Item.code [.pushq (.quad .rax)]) (distance + 8) :=
      moves_of_growth hle rfl rfl rfl (by decide) (by decide)
    have hle' : size ≤ distance + 8 := by omega
    have hr := ih hle'
    have hl : distance + 8 + 8 * (rest.length : Int) = distance + 8 * ((arg :: rest).length : Int) := by
      rw [List.length_cons]
      omega
    rw [hl] at hr
    exact (hld.append hp).append hr

/-- Arguments are loaded into registers other than those of the stack. -/
theorem moves_loads (hle : size ≤ distance) (pairs : List (Argument × Register)) (hp : ∀ pair ∈ pairs, pair.2 ≠ .rsp ∧ pair.2 ≠ .rbp) :
    Moves arrival base size distance (Item.code (pairs.map fun (arg, reg) => arg.loadInto reg)) distance := by
  induction pairs with
  | nil => exact .nil _
  | cons pair rest ih =>
    obtain ⟨⟨hs, hf⟩, hr⟩ := List.forall_mem_cons.mp hp
    obtain ⟨hst, hc⟩ := still_loadInto pair.1 hs hf
    have hl : Moves arrival base size distance (Item.code [pair.1.loadInto pair.2]) distance := hst.moves hle hc
    exact hl.append (ih hr)

/-- Around a call the stack grows by what the call occupies. -/
theorem moves_marshalCode (args : List Argument) :
    Moves arrival base size size (Item.code (marshalCode (CallFrame.ofArguments size args) args))
      (size + (CallFrame.ofArguments size args).total) := by
  have hp := (CallFrame.dvd_ofArguments size args).2.1
  have hps : (CallFrame.ofArguments size args).pushed = 8 * ((args.drop Register.arguments.length).reverse.length : Nat) := by
    rw [List.length_reverse]
    rfl
  unfold marshalCode CallFrame.total
  rw [hps, ← Int.add_assoc]
  generalize (CallFrame.ofArguments size args).padding = padding at hp ⊢
  have hpad : Moves arrival base size size (Item.code (if 0 < padding then [.subq padding .rsp] else [])) (size + padding) := by
    by_cases hpos : 0 < padding
    · rw [if_pos hpos]
      exact moves_of_growth (Int.le_refl _) rfl rfl rfl (by simp [Instruction.subq]) (by simp [Instruction.subq])
    · have hz : padding = 0 := by omega
      rw [if_neg hpos, hz, Int.add_zero]
      exact .nil _
  have hle : size ≤ size + padding := by omega
  have hph : Moves arrival base size (size + padding)
      (Item.code ((args.drop Register.arguments.length).reverse.flatMap pushArgument)) _ := moves_pushes hle _
  have hle' : size ≤ size + padding + 8 * ((args.drop Register.arguments.length).reverse.length : Nat) := by omega
  have hr : ∀ pair ∈ args.zip Register.arguments, pair.2 ≠ .rsp ∧ pair.2 ≠ .rbp := by
    intro pair hpr
    have hmem := (List.of_mem_zip hpr).2
    exact ⟨ne_of_mem_of_not_mem hmem (by decide), ne_of_mem_of_not_mem hmem (by decide)⟩
  have hl : Moves arrival base size _ _ _ := moves_loads hle' (args.zip Register.arguments) hr
  rw [Item.code, List.map_append, List.map_append]
  exact (hpad.append hph).append hl

/-- The instructions that transfer control leave the stack alone. -/
theorem moves_transfer {transfer : List Instruction} (ht : ∀ op ∈ transfer, op.Still) (hle : size ≤ distance)
    (ha : 16 ∣ distance) (har : 16 ∣ arrival - base) : Moves arrival base size distance (Item.code transfer) distance := by
  induction transfer with
  | nil => exact .nil _
  | cons op rest ih =>
    obtain ⟨hop, hr⟩ := List.forall_mem_cons.mp ht
    have hs : Extent.step (.reserved base size distance) (.instruction op) = some (.reserved base size distance) := by
      rw [Extent.step, Extent.execute_reserved hop.growth hop.keeps, Int.add_zero]
    exact .cons hs (fitsWithin_instruction hle (by simp [hop.target]) hop.ret fun _ => ⟨ha, by omega⟩) (ih hr)

/-- A whole call: the stack is aligned when control is transferred, and in the end it is as before. -/
theorem moves_callCode {frame : Frame} (har : 16 ∣ arrival - base) (args : List Argument)
    {transfer : List Instruction} (htr : ∀ op ∈ transfer, op.Still) :
    Moves arrival base frame.size frame.size (Item.code (frame.callCode args transfer)) frame.size := by
  have ha := (CallFrame.dvd_ofArguments frame.size args).1
  have ht := CallFrame.total_nonneg frame.size args
  have hm : Moves arrival base frame.size frame.size _ _ := moves_marshalCode args
  have hc : frame.callCode args transfer = marshalCode (CallFrame.ofArguments frame.size args) args ++ transfer
      ++ releaseCode (CallFrame.ofArguments frame.size args) := rfl
  rw [hc, Item.code, List.map_append, List.map_append]
  generalize CallFrame.ofArguments frame.size args = call at hm ha ht ⊢
  have hle : frame.size ≤ frame.size + call.total := by omega
  refine (hm.append (moves_transfer htr hle ha har)).append ?_
  unfold releaseCode
  by_cases hpos : 0 < call.total
  · have hr : Moves arrival base frame.size (frame.size + call.total) (Item.code [.addq call.total .rsp])
        (frame.size + call.total + -call.total) :=
      moves_of_growth hle rfl rfl rfl (by simp [Instruction.addq]) (by simp [Instruction.addq])
    rw [Int.add_neg_cancel_right] at hr
    rw [if_pos hpos]
    exact hr
  · have hz : call.total = 0 := by omega
    rw [if_neg hpos, hz, Int.add_zero]
    exact .nil _

end

end TagAsm.Asm

namespace TagAsm.Select

open Asm Abi SelectM List Instruction
open TagAsm.Flow (SubroutineId ValueId BlockId Body ClassLayout Subroutine)

section

variable {arrival base : Int} {frame : Frame}

/-! ## Pieces and blocks -/

theorem Transfer.still (transfer : Transfer) : ∀ op ∈ transfer.code, op.Still := by
  have hc : ∀ tgt, (call tgt).Still := fun tgt => ⟨rfl, rfl, rfl, by simp [call]⟩
  have hz : (zero .rax).Still := ⟨rfl, rfl, rfl, by decide⟩
  cases transfer with
  | direct sym => exact forall_mem_singleton.mpr (hc _)
  | native sym => exact forall_mem_pair hz (hc _)
  | operation operation receiver =>
    refine forall_mem_append.mpr ⟨forall_mem_append.mpr ⟨?_, ?_⟩, forall_mem_singleton.mpr (hc _)⟩
    · exact forall_mem_singleton.mpr ⟨rfl, rfl, rfl, by simp [movq]⟩
    · split
      · exact forall_mem_singleton.mpr hz
      · exact forall_mem_nil _

/-- An instruction that leaves the stack alone and neither calls nor returns. -/
def isIdle (op : Instruction) : Bool := op.growth? == some 0 && !op.writes .rbp && op.mnemonic != .ret && op.mnemonic != .call

theorem moves_code {size : Int} {ops : List Instruction} (h : ∀ op ∈ ops, isIdle op = true) :
    Moves arrival base size size (Item.code ops) size := by
  induction ops with
  | nil => exact .nil _
  | cons op rest ih =>
    obtain ⟨hop, hr⟩ := forall_mem_cons.mp h
    obtain ⟨⟨⟨hg, hk⟩, hret⟩, hc⟩ : ((op.growth? = some 0 ∧ op.writes .rbp = false) ∧ op.mnemonic ≠ .ret) ∧ op.mnemonic ≠ .call := by
      simpa [isIdle] using hop
    refine .cons ?_ (fitsWithin_instruction (Int.le_refl _) (fun _ => rfl) hret fun h => absurd h hc) (ih hr)
    rw [Extent.step, Extent.execute_reserved hg hk, Int.add_zero]

theorem Piece.moves (ha : 16 ∣ arrival - base) (piece : Piece) :
    Moves arrival base frame.size frame.size (piece.items frame) frame.size := by
  cases piece with
  | call transfer args => exact moves_callCode ha args transfer.still
  | store off => exact moves_code (forall_mem_singleton.mpr rfl)

theorem moves_piecesCode (ha : 16 ∣ arrival - base) (pieces : List Piece) :
    Moves arrival base frame.size frame.size (piecesCode frame pieces) frame.size := by
  induction pieces with
  | nil => exact .nil _
  | cons piece rest ih => exact (piece.moves ha).append ih

variable {size : Int}

theorem moves_mark {item : Item} (hs : ∀ extent, Extent.step extent item = some extent) (hm : ∀ op, item ≠ .instruction op) :
    Moves arrival base size size [item] size :=
  .single (hs _) ⟨⟨size, rfl⟩, Int.le_refl _, fun _ => rfl, fun op hop => absurd hop (hm op)⟩

theorem moves_label (name : String) : Moves arrival base size size [.label name] size :=
  moves_mark (fun _ => rfl) fun _ => Item.noConfusion

theorem Woven.moves {cx : Context} {rt : Routine} {words : Nat} {syms : SymbolTable} {items : List Item}
    (h : Woven cx rt words syms items) (ha : 16 ∣ arrival - base) :
    Moves arrival base rt.frame.size rt.frame.size items rt.frame.size := by
  induction h with
  | nil => exact .nil _
  | comment text => exact moves_mark (fun _ => rfl) fun _ => Item.noConfusion
  | line num => exact moves_label _
  | block id => exact moves_label _
  | deed hd => exact moves_piecesCode ha _
  | jump | leave => exact moves_code (forall_mem_singleton.mpr rfl)
  | branch pos neg => exact moves_code (forall_mem_cons.mpr ⟨rfl, forall_mem_pair rfl rfl⟩)
  | append _ _ ihfirst ihrest => exact ihfirst.append ihrest

end

/-! ## Jumps -/

theorem target?_of_isStep {op : Instruction} (h : op.isStep = true) : op.target? = none := by
  obtain ⟨mnemonic, size, opds⟩ := op
  cases mnemonic <;> first | rfl | cases h

theorem Steps.target? {items : List Item} (h : Steps items) : ∀ item ∈ items, item.target? = none := by
  intro item hi
  obtain ⟨op, rfl, hop⟩ := h item hi
  exact target?_of_isStep hop

/-- Where there is no jump, all jumps are as they should be. -/
theorem forall_target_of_none {items : List Item} {P : String → Prop} (h : ∀ item ∈ items, item.target? = none) :
    ∀ item ∈ items, ∀ name, item.target? = some name → P name := by
  intro item hi name hn
  rw [h item hi] at hn
  cases hn

/-- Blocks jump to blocks, and to the end of the lives of values. -/
theorem Woven.targets {cx : Context} {rt : Routine} {words : Nat} {syms : SymbolTable} {items : List Item}
    (h : Woven cx rt words syms items) :
    ∀ item ∈ items, ∀ name, item.target? = some name → (∃ id, name = blockLabel rt.symbol id) ∨ name = localLabel rt.symbol "deinit" := by
  induction h with
  | nil => exact forall_mem_nil _
  | comment | line | block => exact forall_target_of_none (forall_mem_singleton.mpr rfl)
  | deed hd => exact forall_target_of_none (steps_piecesCode _ _).target?
  | jump tgt =>
    refine forall_mem_singleton.mpr fun name hn => Or.inl ⟨tgt, ?_⟩
    exact (Option.some.inj hn).symm
  | branch pos neg =>
    intro item hi name hn
    simp only [Item.code, branchIfSet, map_cons, map_nil, mem_cons, not_mem_nil, or_false] at hi
    rcases hi with rfl | rfl | rfl
    · cases hn
    · exact Or.inl ⟨pos, (Option.some.inj hn).symm⟩
    · exact Or.inl ⟨neg, (Option.some.inj hn).symm⟩
  | leave =>
    refine forall_mem_singleton.mpr fun name hn => Or.inr ?_
    exact (Option.some.inj hn).symm
  | append _ _ ihfirst ihrest => exact forall_mem_append.mpr ⟨ihfirst, ihrest⟩

end TagAsm.Select

namespace TagAsm.Asm

/-! ## Whole code -/

section

variable {arrival : Int}

/-- Code in which a frame is opened, used and given up is balanced, if all jumps lie in between and stay there. -/
theorem balanced_of_moves {base size : Int} {last : Extent} {head region tail : List Item}
    (hh : Passes Extent.step (Extent.Fits arrival) (.outside 0) head (.reserved base size size))
    (hr : Moves arrival base size size region size)
    (htl : Passes Extent.step (Extent.Fits arrival) (.reserved base size size) tail last)
    (hst : ∀ item ∈ head ++ tail, item.target? = none)
    (hl : ∀ item ∈ region, ∀ name, item.target? = some name → Item.label name ∉ head ∧ Item.label name ∉ tail) :
    Balanced arrival (head ++ (region ++ tail)) := by
  have hin : Passes Extent.step (Extent.Fits arrival) (.reserved base size size) region (.reserved base size size) :=
    hr.mono fun _ _ _ h => h.2
  have hw := hh.append (hin.append htl)
  have hj : Joined Extent.step (head ++ (region ++ tail)) (.outside 0) := by
    refine joined_of_passes hh.ends hr ?_ ?_ hst hl
    · rintro now item ⟨⟨distance, rfl⟩, -, hjn, -⟩ hi
      rw [hjn hi]
    · intro item hi
      cases item with
      | instruction op =>
        obtain ⟨mnemonic, width, opds⟩ := op
        have hg : Instruction.growth? ⟨mnemonic, width, opds⟩ = some 0 ∧ Instruction.writes .rbp ⟨mnemonic, width, opds⟩ = false := by
          cases mnemonic <;> first | exact ⟨rfl, rfl⟩ | cases hi
        rw [Extent.step, Extent.execute_reserved hg.1 hg.2, Int.add_zero]
      | _ => cases hi
  refine ⟨fun place item hi => hw.fits_getElem? hi, fun place extent ht => hj.scan_of_tracks ht, ?_⟩
  intro place goal extent ht hf
  obtain ⟨item, hi⟩ := hf.getElem?
  obtain ⟨next, hs⟩ := hw.exists_step hi (hj.scan_of_tracks ht)
  exact ⟨next, .flow ht hi hs hf⟩

/-- Without a frame, items that neither jump nor call nor return. -/
theorem fits_outside {used : Int} {item : Item} (ht : item.target? = none)
    (hop : ∀ op, item = .instruction op → op.mnemonic ≠ .call ∧ op.mnemonic ≠ .ret) : (Extent.outside used).Fits arrival item :=
  ⟨ht, fun op h => ⟨(hop op h).1, fun hret => absurd hret (hop op h).2⟩⟩

variable (arrival : Int)

theorem passes_label (used : Int) (name : String) :
    Passes Extent.step (Extent.Fits arrival) (.outside used) [.label name] (.outside used) :=
  .single rfl (fits_outside rfl fun _ => Item.noConfusion)

theorem passes_exportedLabel (used : Int) (name : String) :
    Passes Extent.step (Extent.Fits arrival) (.outside used) (Item.exportedLabel name) (.outside used) :=
  .cons rfl (fits_outside rfl fun _ => Item.noConfusion) (passes_label arrival used name)

/-- The frame pointer is set, and a frame is reserved. -/
theorem passes_reserve (used size : Int) :
    Passes Extent.step (Extent.Fits arrival) (.outside used) (Item.code [.movq (.quad .rsp) (.quad .rbp), .subq size .rsp])
      (.reserved used size size) := by
  refine .cons rfl (fits_outside rfl fun op hop => ?_) (.single rfl ⟨size, rfl⟩)
  cases hop
  exact ⟨by decide, by decide⟩

/-- The frame pointer of the caller is kept under the frame. -/
theorem passes_openFrame (size : Int) :
    Passes Extent.step (Extent.Fits arrival) (.outside 0) (Item.code (Instruction.openFrame ++ [.subq size .rsp]))
      (.reserved 8 size size) := by
  refine .cons rfl (fits_outside rfl fun op hop => ?_) (passes_reserve arrival 8 size)
  cases hop
  exact ⟨by decide, by decide⟩

/-- The frame is given up, and when the code returns nothing is left on the stack. -/
theorem passes_closeFrame (size : Int) :
    Passes Extent.step (Extent.Fits arrival) (.reserved 8 size size) (Item.code Instruction.closeFrame) (.outside (-8)) := by
  refine .cons rfl ?_ (.cons rfl (fits_outside rfl fun op hop => ?_) (.single rfl ⟨rfl, fun op hop => ?_⟩))
  · exact (fitsWithin_instruction (Int.le_refl _) (fun _ => rfl) (by decide) fun h => absurd h (by decide)).2
  · cases hop
    exact ⟨by decide, by decide⟩
  · cases hop
    exact ⟨by decide, fun _ => rfl⟩

end

end TagAsm.Asm

namespace TagAsm.Select

open Asm Abi SelectM List Item Instruction
open TagAsm.Flow (SubroutineId ValueId BlockId Body ClassLayout Subroutine)

/-! ## Subroutines -/

/-- The code that leaves a subroutine closes the frame, or makes calls and ends the process. -/
theorem Leaving.shape {frame : Frame} {returnValue : ValueId} {exit : Exit} {items : List Item}
    (h : Leaving frame returnValue exit items) :
    items = code closeFrame ∨ ∃ pieces op, items = piecesCode frame pieces ++ code (op :: exitProcess) ∧
      (∀ off, .store off ∉ pieces) ∧ (op = .movq (.quad .rax) (.quad .rdi) ∨ op = .zero .rdi) := by
  cases h with
  | toCaller => exact Or.inl rfl
  | withCode kind hs => exact Or.inr ⟨_, _, rfl, by simp, Or.inl rfl⟩
  | withoutCode => exact Or.inr ⟨_, _, rfl, by simp, Or.inr rfl⟩

namespace Phases

/-- The items up to the one that reserves the frame. -/
def opening (ph : Phases) : List Item :=
  Item.exportedLabel ph.symbol ++ [.label (localLabel ph.symbol "entry")]
    ++ Item.code (Instruction.openFrame ++ [.subq ph.frame.size .rsp])

/-- The addresses that arrived in registers are kept. -/
def saves (ph : Phases) : List Instruction :=
  .movq (.quad .rdi) (.frame ph.layout.returnSlot.offset)
    :: (ph.layout.incoming.zip (Register.arguments.drop 1)).map fun (slot, register) => .movq (.quad register) (.frame slot.offset)

/-- The items from there up to the blocks. -/
def filling (ph : Phases) : List Item :=
  Item.code ph.saves ++ ([.label (localLabel ph.symbol "copy")] ++ (piecesCode ph.frame ph.copies
    ++ ([.label (localLabel ph.symbol "init")] ++ piecesCode ph.frame ph.defaults)))

/-- The blocks, and the label in front of the way out. -/
def working (ph : Phases) : List Item := ph.blocks ++ [.label (localLabel ph.symbol "deinit")]

/-- The items from there up to the code that leaves the subroutine. -/
def emptying (ph : Phases) : List Item := piecesCode ph.frame ph.drops ++ [.label (localLabel ph.symbol "epilogue")]

/-- The items in front of the blocks. -/
def making (ph : Phases) : List Item := ph.opening ++ ph.filling

/-- The items after the blocks. -/
def leaving (ph : Phases) : List Item := ph.emptying ++ (ph.leave ++ [.label (localLabel ph.symbol "exit")])

section

variable (ph : Phases)

theorem size_frame : ph.frame.size = ph.layout.frame.size := size_withRecords _ _

theorem size_frame_pos : 0 < ph.frame.size := by
  rw [size_frame]
  exact size_layoutOf_pos _ _

theorem entryCode_eq : entryCode ph.symbol ph.layout = ph.opening ++ code ph.saves := by
  have hpos : 0 < ph.layout.frame.size := ph.size_frame ▸ ph.size_frame_pos
  unfold entryCode opening saves
  rw [if_pos hpos, size_frame]
  simp [code]

theorem items_eq : ph.items = ph.making ++ (ph.working ++ ph.leaving) := by
  unfold items making filling working leaving emptying
  rw [entryCode_eq]
  simp only [append_assoc]

end

variable {cx : Context} {syms : SymbolTable} {ph : Phases}

theorem passes_opening (ph : Phases) :
    Passes Extent.step (Extent.Fits 8) (.outside 0) ph.opening (.reserved 8 ph.frame.size ph.frame.size) :=
  ((passes_exportedLabel 8 0 _).append (passes_label 8 0 _)).append (passes_openFrame 8 _)

theorem isIdle_saves (ph : Phases) : ∀ op ∈ ph.saves, isIdle op = true := by
  refine forall_mem_cons.mpr ⟨rfl, fun op hop => ?_⟩
  obtain ⟨pair, -, rfl⟩ := mem_map.mp hop
  rfl

/-- The labels of a subroutine that are not jumped to. -/
def passedLabels (sym : String) : List String := sym :: ["entry", "copy", "init", "epilogue", "exit"].map (localLabel sym)

/-- The item does not jump, and if it is a label then one that is not jumped to. -/
def Plain (sym : String) (item : Item) : Prop := item.target? = none ∧ ∀ name, item = .label name → name ∈ passedLabels sym

theorem plain_code (sym : String) {ops : List Instruction} (h : ∀ op ∈ ops, op.target? = none) : ∀ item ∈ code ops, Plain sym item := by
  intro item hi
  obtain ⟨op, hop, rfl⟩ := mem_map.mp hi
  exact ⟨h op hop, fun _ hl => by cases hl⟩

theorem plain_label {sym role : String} (h : role ∈ ["entry", "copy", "init", "epilogue", "exit"]) :
    ∀ item ∈ [label (localLabel sym role)], Plain sym item := by
  refine forall_mem_singleton.mpr ⟨rfl, fun name hn => ?_⟩
  cases hn
  exact mem_cons_of_mem _ (mem_map_of_mem h)

theorem plain_piecesCode (sym : String) (frame : Frame) (pieces : List Piece) : ∀ item ∈ piecesCode frame pieces, Plain sym item := by
  intro item hi
  obtain ⟨op, rfl, hop⟩ := steps_piecesCode frame pieces item hi
  exact ⟨target?_of_isStep hop, fun _ hl => by cases hl⟩

theorem plain_making (ph : Phases) : ∀ item ∈ ph.making, Plain ph.symbol item := by
  have hx : ∀ item ∈ exportedLabel ph.symbol, Plain ph.symbol item := by
    refine forall_mem_pair ⟨rfl, fun _ hl => by cases hl⟩ ⟨rfl, fun name hn => ?_⟩
    cases hn
    exact mem_cons_self
  have hs : ∀ op ∈ ph.saves, op.target? = none := by
    refine forall_mem_cons.mpr ⟨rfl, fun op hop => ?_⟩
    obtain ⟨pair, -, rfl⟩ := mem_map.mp hop
    rfl
  unfold making opening filling
  simp only [forall_mem_append]
  exact ⟨⟨⟨hx, plain_label (by decide)⟩, plain_code _ (forall_mem_cons.mpr ⟨rfl, forall_mem_pair rfl rfl⟩)⟩, plain_code _ hs,
    plain_label (by decide), plain_piecesCode _ _ _, plain_label (by decide), plain_piecesCode _ _ _⟩

theorem target?_closeFrame : ∀ op ∈ closeFrame, op.target? = none := forall_mem_cons.mpr ⟨rfl, forall_mem_pair rfl rfl⟩

section

variable (h : ph.Proper cx syms)
include h

theorem Proper.plain_leaving : ∀ item ∈ ph.leaving, Plain ph.symbol item := by
  have hl : ∀ item ∈ ph.leave, Plain ph.symbol item := by
    have hl := h.leave
    generalize ph.leave = leave at hl ⊢
    rcases hl.shape with rfl | ⟨pieces, op, rfl, -, hop⟩
    · exact plain_code _ target?_closeFrame
    · refine forall_mem_append.mpr ⟨plain_piecesCode _ _ _, plain_code _ (forall_mem_cons.mpr ⟨?_, forall_mem_pair rfl rfl⟩)⟩
      rcases hop with rfl | rfl <;> rfl
  unfold leaving emptying
  simp only [forall_mem_append]
  exact ⟨⟨plain_piecesCode _ _ _, plain_label (by decide)⟩, hl, plain_label (by decide)⟩

/-- No jump goes to a label that is not in the blocks, or in front of the way out. -/
theorem Proper.target_notMem {item : Item} (hi : item ∈ ph.working) {name : String} (hn : item.target? = some name) :
    name ∉ passedLabels ph.symbol := by
  have hr : ∀ role, (∀ other ∈ ["entry", "copy", "init", "epilogue", "exit"], role ≠ other) →
      localLabel ph.symbol role ∉ passedLabels ph.symbol := by
    intro role hrl hmem
    rcases mem_cons.mp hmem with hs | hmem
    · exact localLabel_ne_self _ _ hs
    · obtain ⟨other, hot, heq⟩ := mem_map.mp hmem
      exact hrl other hot (localLabel_inj.mp heq).symm
  rcases mem_append.mp hi with hi | hi
  · rcases h.blocks.targets item hi name hn with ⟨id, rfl⟩ | rfl
    · have hf : ∀ other ∈ ["entry", "copy", "init", "epilogue", "exit"], other.toList.head? ≠ some 'b' := by decide
      exact hr _ fun other hot heq => blockLabel_ne (hf other hot) id (congrArg (localLabel ph.symbol) heq)
    · exact hr _ (by decide)
  · obtain rfl := mem_singleton.mp hi
    cases hn

/-- All jumps lie in between, and stay there. -/
theorem Proper.jumps_inside : (∀ item ∈ ph.making ++ ph.leaving, item.target? = none) ∧
    ∀ item ∈ ph.working, ∀ name, item.target? = some name → label name ∉ ph.making ∧ label name ∉ ph.leaving := by
  have hm := ph.plain_making
  have hl := h.plain_leaving
  refine ⟨forall_mem_append.mpr ⟨fun item hi => (hm item hi).1, fun item hi => (hl item hi).1⟩, fun item hi name hn => ?_⟩
  have ht := h.target_notMem hi hn
  exact ⟨fun hmem => ht ((hm _ hmem).2 name rfl), fun hmem => ht ((hl _ hmem).2 name rfl)⟩

end

/-- Code in a subroutine with this frame that uses the stack for calls only. -/
abbrev Stays (frame : Frame) (items : List Item) : Prop := Moves 8 8 frame.size frame.size items frame.size

theorem Proper.stays (h : ph.Proper cx syms) : Stays ph.frame ph.filling ∧ Stays ph.frame ph.working ∧ Stays ph.frame ph.emptying := by
  have hp : ∀ pieces, Stays ph.frame (piecesCode ph.frame pieces) := moves_piecesCode (by decide)
  have hb : Stays ph.frame ph.blocks := h.blocks.moves (by decide)
  refine ⟨?_, hb.append (moves_label _), (hp _).append (moves_label _)⟩
  exact (moves_code ph.isIdle_saves).append ((moves_label _).append ((hp _).append ((moves_label _).append (hp _))))

/-- Code that ends the process stays within the frame. -/
theorem stays_exit (frame : Frame) (pieces : List Piece) {op : Instruction} (hop : op = .movq (.quad .rax) (.quad .rdi) ∨ op = .zero .rdi) :
    Stays frame (piecesCode frame pieces ++ code (op :: exitProcess)) := by
  refine (moves_piecesCode (by decide) pieces).append (moves_code (forall_mem_cons.mpr ⟨?_, forall_mem_pair rfl rfl⟩))
  rcases hop with rfl | rfl <;> rfl

/-- The stack is balanced in a subroutine. -/
theorem Proper.balanced (h : ph.Proper cx syms) : Balanced 8 ph.items := by
  obtain ⟨hf, hw, he⟩ := h.stays
  have hp {items : List Item} (hs : Stays ph.frame items) : Passes Extent.step (Extent.Fits 8)
      (.reserved 8 ph.frame.size ph.frame.size) items (.reserved 8 ph.frame.size ph.frame.size) :=
    hs.mono fun _ _ _ h => h.2
  obtain ⟨last, hl⟩ : ∃ last, Passes Extent.step (Extent.Fits 8) (.reserved 8 ph.frame.size ph.frame.size)
      (ph.leave ++ [.label (localLabel ph.symbol "exit")]) last := by
    have hl := h.leave
    generalize ph.leave = leave at hl ⊢
    rcases hl.shape with rfl | ⟨pieces, op, rfl, -, hop⟩
    · exact ⟨_, (passes_closeFrame 8 _).append (passes_label 8 (-8) _)⟩
    · exact ⟨_, hp ((stays_exit _ pieces hop).append (moves_label _))⟩
  rw [items_eq]
  exact balanced_of_moves (ph.passes_opening.append (hp hf)) hw ((hp he).append hl) h.jumps_inside.1 h.jumps_inside.2

end Phases

/-! ## Initializers and the start of the process -/

theorem balanced_initializer (sym : String) (pieces : List Piece) :
    Balanced 8 (.label sym :: (code (openFrame ++ [.subq initializerFrame.frame.size .rsp,
      .movq (.quad .rdi) (.frame initializerFrame.object)]) ++ piecesCode initializerFrame.frame pieces
      ++ code closeFrame)) := by
  have hk : Phases.Stays initializerFrame.frame (code [.movq (.quad .rdi) (.frame initializerFrame.object)]) :=
    moves_code (forall_mem_singleton.mpr rfl)
  have hr := hk.append (moves_piecesCode (by decide) pieces)
  have hh := (passes_label 8 0 sym).append (passes_openFrame 8 initializerFrame.frame.size)
  have hb := balanced_of_moves hh hr (passes_closeFrame 8 _) ?_ ?_
  · simpa [code] using hb
  · refine forall_mem_append.mpr ⟨forall_mem_cons.mpr ⟨rfl, ?_⟩, forall_mem_cons.mpr ⟨rfl, forall_mem_pair rfl rfl⟩⟩
    exact forall_mem_cons.mpr ⟨rfl, forall_mem_pair rfl rfl⟩
  · exact forall_target_of_none (forall_mem_append.mpr ⟨forall_mem_singleton.mpr rfl, (steps_piecesCode _ _).target?⟩)

theorem balanced_start (pieces : List Piece) :
    Balanced 0 (exportedLabel startSymbol ++ code [.movq (.quad .rsp) (.quad .rbp), .subq startFrame.size .rsp]
      ++ piecesCode startFrame pieces) := by
  have hr : Moves 0 0 startFrame.size startFrame.size (piecesCode startFrame pieces) startFrame.size :=
    moves_piecesCode (by decide) pieces
  have hh := (passes_exportedLabel 0 0 startSymbol).append (passes_reserve 0 0 startFrame.size)
  have hb := balanced_of_moves hh hr (.nil _) ?_ ?_
  · rwa [append_nil] at hb
  · rw [append_nil]
    refine forall_mem_append.mpr ⟨?_, ?_⟩
    · exact forall_mem_pair rfl rfl
    · exact forall_mem_pair rfl rfl
  · exact forall_target_of_none (steps_piecesCode _ _).target?

/-! ## Programs -/

/-- Code that is emitted in one go, and how many bytes above a multiple of 16 the stack pointer is when it is entered: a call
pushes the return address, and the process starts without one. -/
inductive Written (cx : Context) : Int → List Item → Prop where
  | subroutine {id : SubroutineId} {sub : Subroutine} {body : Body} {sym : String} {kept later : Selection}
    {items : List Item} {frame : Frame} (hid : cx.program.subroutines[id]? = some sub)
    (hbody : sub.kind = .defined body)
    (hrun : (subroutineCode cx id sub body sym).run.run kept = .ok (.ok (items, frame), later)) :
    Written cx 8 items
  | initializer {ty : TypeId} {decl : ClassLayout} {sym : String} {kept later : Selection} {items : List Item}
    (hclass : cx.program.classOfType? ty = some decl)
    (hrun : (initializerCode cx decl sym).run.run kept = .ok (.ok items, later)) : Written cx 8 items
  | start {entry : SubroutineId} {sym : String} {kept later : Selection} {items : List Item}
    (hentry : cx.program.entry = some entry) (hrun : (startCode sym).run.run kept = .ok (.ok items, later)) :
    Written cx 0 items

section

variable {cx : Context} {arrival : Int} {items : List Item}

theorem Written.balanced (h : Written cx arrival items) : Balanced arrival items := by
  cases h with
  | subroutine hid hb hrun =>
    obtain ⟨-, hp⟩ := subroutineCode_leaves _ _ _ _ _ _ _ (SymbolTable.Within.refl _) hrun
    obtain ⟨ph, hpr, -, -, hr⟩ := hp _ rfl
    obtain ⟨rfl, -⟩ := Prod.mk.inj hr
    exact hpr.balanced
  | initializer hc hrun =>
    obtain ⟨pieces, rfl⟩ := initializerCode_pieced _ _ _ _ _ hrun
    exact balanced_initializer _ pieces
  | start he hrun =>
    obtain ⟨pieces, rfl⟩ := startCode_pieced _ _ _ _ hrun
    exact balanced_start pieces

/-- The items are put together from parts. -/
def InParts (cx : Context) (items : List Item) : Prop :=
  ∃ parts : List (Int × List Item), items = parts.flatMap Prod.snd ∧ ∀ part ∈ parts, Written cx part.1 part.2

theorem InParts.nil : InParts cx [] := ⟨[], rfl, forall_mem_nil _⟩

theorem InParts.append {rest : List Item} (h : InParts cx items) (hr : InParts cx rest) : InParts cx (items ++ rest) := by
  obtain ⟨parts, rfl, hp⟩ := h
  obtain ⟨others, rfl, ho⟩ := hr
  exact ⟨parts ++ others, flatMap_append.symm, forall_mem_append.mpr ⟨hp, ho⟩⟩

theorem Written.inParts (h : Written cx arrival items) : InParts cx items :=
  ⟨[(arrival, items)], (append_nil items).symm, forall_mem_singleton.mpr h⟩

/-- A piece of work adds one part at most. -/
theorem Handles.inParts {before after : Emission} {work : Work} {out : Outcome} (h : Handles cx before work out after) :
    InParts cx out.items := by
  cases h with
  | subroutine hid hb hrun _ _ => exact (Written.subroutine hid hb hrun).inParts
  | initializer hc hrun => exact (Written.initializer hc hrun).inParts
  | subroutineRefused | nameless | bodiless | initializerRefused | classless => exact .nil

/-- The text of a program is put together from parts. -/
theorem inParts_selectProgram {diags after : Diagnostics} {unit : AssemblyUnit}
    (h : selectProgram cx diags = .ok (unit, after)) : InParts cx unit.text := by
  obtain ⟨syms, -, h⟩ := of_bind_eq_ok h
  obtain ⟨drained, hd, h⟩ := of_bind_eq_ok h
  obtain ⟨last, hst, h⟩ := of_bind_eq_ok h
  obtain ⟨rfl, -⟩ := ok_pair_inj h
  have hp : InParts cx drained.text := by
    refine drain_induction (P := fun now => InParts cx now.text) hd (fun _ _ _ _ _ hw hp => ?_) .nil
    rw [hw.text_eq]
    exact hp.append hw.inParts
  obtain ⟨items, hs⟩ := starts_of_emitStart hst
  rw [toUnit_text, hs.text_eq]
  cases hs with
  | started he hem hrun => exact (Written.start he hrun).inParts.append hp
  | entryless | nameless | bodiless | leftOut | unknown => exact hp

end

/-- The text of every program that is selected is put together from subroutines, initializers and the code that starts the process,
and in each of them the stack is balanced and aligned, in the order of the items and along every path. -/
theorem stack_balanced_selectProgram (context : Context) (diagnostics after : Diagnostics) (unit : AssemblyUnit)
    (h : selectProgram context diagnostics = .ok (unit, after)) :
    ∃ parts : List (Int × List Item), unit.text = parts.flatMap Prod.snd ∧
      ∀ part ∈ parts, Written context part.1 part.2 ∧ Balanced part.1 part.2 := by
  obtain ⟨parts, htext, hparts⟩ := inParts_selectProgram h
  exact ⟨parts, htext, fun part hpart => ⟨hparts part hpart, (hparts part hpart).balanced⟩⟩

/-- Every part of the code of the workshop keeps the stack in balance. -/
theorem stack_balanced_selectProgram_workshop :
    ∃ program middle unit, (compileToFlow ⟨true, true, true⟩ workshop).start = .ok (.ok program, middle) ∧
      selectProgram ⟨program, true, false⟩ middle = .ok (unit, []) ∧
      ∃ parts : List (Int × List Item), unit.text = parts.flatMap Prod.snd ∧
        ∀ part ∈ parts, Written ⟨program, true, false⟩ part.1 part.2 ∧ Balanced part.1 part.2 := by
  obtain ⟨program, middle, unit, hflow, hselect⟩ := exists_selectProgram_workshop
  exact ⟨program, middle, unit, hflow, hselect, stack_balanced_selectProgram ⟨program, true, false⟩ middle [] unit hselect⟩

end TagAsm.Select
