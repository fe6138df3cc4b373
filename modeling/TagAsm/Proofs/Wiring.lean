import TagAsm.Proofs.Realization

/-!
# Wiring blocks

A statement adds blocks to a draft and leaves one of them, the last, perhaps open. What the blocks realize is known only once
the last one is closed, so it is stated of every graph that shows the blocks with the last one going on somewhere
(`Lowers`). When the last block has been connected the part is sealed (`Sealed`): nothing that is added later touches it.
-/

namespace TagAsm.Lower

open TagAsm.Flow Table

/-- The block once it is closed. If it is open it goes on with `next`. -/
def DraftBlock.closeWith (next : BlockId) (block : DraftBlock) : Block :=
  ⟨block.statements, block.terminator.getD (.jump next), block.expressions⟩

/-- A block that is closed already does not go on elsewhere. -/
theorem DraftBlock.closeWith_of_isSome {block : DraftBlock} (h : block.terminator.isSome = true) (next other : BlockId) :
    block.closeWith next = block.closeWith other := by
  obtain ⟨terminator, ht⟩ := Option.isSome_iff_exists.mp h
  simp [closeWith, ht]

/-- Lets a block go on with `tgt` if it is open. -/
def connectAt (rows : Table DraftBlock) (id tgt : BlockId) : Table DraftBlock :=
  rows.modify id fun block => { block with terminator := block.terminator <|> some (.jump tgt) }

/-- Closes a block. -/
def closeAt (rows : Table DraftBlock) (id : BlockId) (terminator : Terminator) : Table DraftBlock :=
  rows.modify id fun block => { block with terminator := some terminator }

/-- The graph has the blocks from `start` on. An open one goes on with `next`. -/
def Shows (blocks : Table Block) (rows : Table DraftBlock) (start : Nat) (next : BlockId) : Prop :=
  ∀ id, start ≤ id → id < rows.length → blocks[id]? = rows[id]?.map (DraftBlock.closeWith next)

/-- The blocks that were added to `old` make up a part that `R` describes: in a graph that has them, from the first block of
the segment to wherever its last block goes on. -/
structure Lowers (old new : Table DraftBlock) (segment : Segment) (R : Table Block → BlockId → BlockId → Prop) : Prop where
  le : old.length ≤ new.length
  kept : ∀ id < old.length, new[id]? = old[id]?
  last_ge : old.length ≤ segment.last
  last_lt : segment.last < new.length
  closed : ∀ id block, old.length ≤ id → id ≠ segment.last → new[id]? = some block → block.terminator.isSome = true
  realized : ∀ blocks next, Shows blocks new old.length next → R blocks segment.first next

/-- The blocks that were added to `old` are closed, and `P` holds in every graph that has them. -/
structure Sealed (old new : Table DraftBlock) (P : Table Block → Prop) : Prop where
  le : old.length ≤ new.length
  kept : ∀ id < old.length, new[id]? = old[id]?
  closed : ∀ id block, old.length ≤ id → new[id]? = some block → block.terminator.isSome = true
  holds : ∀ blocks next, Shows blocks new old.length next → P blocks

/-! ## Rows after a change -/

section

variable {rows : Table DraftBlock} {id other tgt : Nat} {terminator : Terminator}

theorem length_connectAt : (connectAt rows id tgt).length = rows.length := by simp [connectAt]

theorem length_closeAt : (closeAt rows id terminator).length = rows.length := by simp [closeAt]

theorem getElem?_connectAt_ne (h : other ≠ id) : (connectAt rows id tgt)[other]? = rows[other]? := by
  simp [connectAt, Ne.symm h]

theorem getElem?_closeAt_ne (h : other ≠ id) : (closeAt rows id terminator)[other]? = rows[other]? := by
  simp [closeAt, Ne.symm h]

theorem getElem?_closeAt_self {block : DraftBlock} (h : rows[id]? = some block) :
    (closeAt rows id terminator)[id]? = some { block with terminator := some terminator } := by
  simp [closeAt, h]

theorem isSome_of_connectAt_self {block : DraftBlock} (h : (connectAt rows id tgt)[id]? = some block) :
    block.terminator.isSome = true := by
  simp only [connectAt, List.getElem?_modify, Option.map_eq_map, Option.map_eq_some_iff, if_pos] at h
  obtain ⟨before, -, rfl⟩ := h
  cases before.terminator <;> rfl

/-- To connect a block is to close it with the target. -/
theorem map_closeWith_connectAt_self (next : BlockId) :
    (connectAt rows id tgt)[id]?.map (DraftBlock.closeWith next) = rows[id]?.map (DraftBlock.closeWith tgt) := by
  cases hrow : rows[id]? with
  | none => simp [connectAt, hrow]
  | some block => cases ht : block.terminator <;>
      simp [connectAt, hrow, DraftBlock.closeWith, ht]

/-- The row just added can be closed before it is added. -/
theorem closeAt_push (rows : Table DraftBlock) (block : DraftBlock) (terminator : Terminator) :
    closeAt (rows.push block) rows.length terminator = rows.push { block with terminator := some terminator } := by
  simp [closeAt, push, List.modify_eq_set_getElem?]

/-- A row that was there before can be connected before another one is added. -/
theorem connectAt_push (block : DraftBlock) (h : id < rows.length) :
    connectAt (rows.push block) id tgt = (connectAt rows id tgt).push block := by
  simp [connectAt, push, List.modify_eq_set_getElem?, List.getElem?_append_left, h]

theorem getElem?_push_length (block : DraftBlock) : (rows.push block)[rows.length]? = some block := by
  simp [push]

/-- Who shows the blocks still shows those that come later. -/
theorem Shows.later {blocks : Table Block} {start later next : Nat} (h : Shows blocks rows start next) (hle : start ≤ later) :
    Shows blocks rows later next :=
  fun id hid hlt => h id (le_trans hle hid) hlt

end

/-! ## Single blocks -/

section

variable {old new : Table DraftBlock} {segment : Segment} {R : Table Block → BlockId → BlockId → Prop}
  {P : Table Block → Prop} {R' : Table Block → BlockId → BlockId → Prop}

theorem Lowers.mono (h : Lowers old new segment R)
    (himp : ∀ blocks next, R blocks segment.first next → R' blocks segment.first next) : Lowers old new segment R' :=
  ⟨h.le, h.kept, h.last_ge, h.last_lt, h.closed, fun blocks next hs => himp blocks next (h.realized blocks next hs)⟩

theorem lowers_push (old : Table DraftBlock) (block : DraftBlock) : Lowers old (old.push block) (.single old.length)
      (fun blocks first next => blocks[first]? = some (block.closeWith next)) := by
  refine ⟨by simp, fun id hid => getElem?_push_of_lt hid, le_refl _, by simp [Segment.single], ?_, ?_⟩
  · intro id found hge hne hf
    have hlt := (List.getElem?_eq_some_iff.mp hf).1
    rw [length_push] at hlt
    exact absurd (show id = old.length by omega) hne
  · intro blocks next hs
    rw [Segment.single, hs old.length (le_refl _) (by simp), getElem?_push_length]
    rfl

theorem sealed_self (old : Table DraftBlock) (h : ∀ blocks, P blocks) : Sealed old old P := by
  refine ⟨le_refl _, fun _ _ => rfl, ?_, fun blocks _ _ => h blocks⟩
  intro id block hge hb
  exact absurd (List.getElem?_eq_some_iff.mp hb).1 (by omega)

theorem Sealed.push (h : Sealed old new P) (block : DraftBlock) (hb : block.terminator.isSome = true) :
    Sealed old (new.push block) (fun blocks => P blocks ∧ ∃ next, blocks[new.length]? = some (block.closeWith next)) := by
  have hle := h.le
  refine ⟨by rw [length_push]; omega, ?_, ?_, ?_⟩
  · intro id hid
    rw [getElem?_push_of_lt (by omega), h.kept id hid]
  · intro id found hge hf
    have hlt := (List.getElem?_eq_some_iff.mp hf).1
    rw [length_push] at hlt
    by_cases hid : id < new.length
    · rw [getElem?_push_of_lt hid] at hf
      exact h.closed id found hge hf
    · obtain rfl : id = new.length := by omega
      rw [getElem?_push_length] at hf
      exact Option.some.inj hf ▸ hb
  · intro blocks next hs
    refine ⟨h.holds blocks next fun id hge hlt => ?_, next, ?_⟩
    · rw [hs id hge (by rw [length_push]; omega), getElem?_push_of_lt hlt]
    · rw [hs new.length hle (by simp), getElem?_push_length]
      rfl

/-! ## Parts put together -/

/-- A part whose last block is connected. -/
theorem Lowers.seal (h : Lowers old new segment R) (tgt : BlockId) :
    Sealed old (connectAt new segment.last tgt) (fun blocks => R blocks segment.first tgt) := by
  have hge := h.last_ge
  refine ⟨by rw [length_connectAt]; exact h.le, ?_, ?_, ?_⟩
  · intro id hid
    rw [getElem?_connectAt_ne (by omega), h.kept id hid]
  · intro id block hid hb
    by_cases hl : id = segment.last
    · subst hl
      exact isSome_of_connectAt_self hb
    · rw [getElem?_connectAt_ne hl] at hb
      exact h.closed id block hid hl hb
  · intro blocks next hs
    refine h.realized blocks tgt fun id hid hlt => ?_
    rw [hs id hid (by rw [length_connectAt]; exact hlt)]
    by_cases hl : id = segment.last
    · subst hl
      exact map_closeWith_connectAt_self next
    · rw [getElem?_connectAt_ne hl]
      cases hb : new[id]? with
      | none => rfl
      | some block =>
        exact congrArg some (DraftBlock.closeWith_of_isSome (h.closed id block hid hl hb) next tgt)

/-- Two sealed parts, one after the other. -/
theorem Sealed.trans {mid : Table DraftBlock} {Q : Table Block → Prop} (hf : Sealed old mid P)
    (ht : Sealed mid new Q) : Sealed old new (fun blocks => P blocks ∧ Q blocks) := by
  have hle := hf.le
  have hle' := ht.le
  refine ⟨by omega, ?_, ?_, ?_⟩
  · intro id hid
    rw [ht.kept id (by omega), hf.kept id hid]
  · intro id block hid hb
    by_cases hm : id < mid.length
    · rw [ht.kept id hm] at hb
      exact hf.closed id block hid hb
    · exact ht.closed id block (by omega) hb
  · intro blocks next hs
    refine ⟨hf.holds blocks next fun id hid hlt => ?_, ht.holds blocks next (hs.later hle)⟩
    rw [hs id hid (by omega), ht.kept id hlt]

/-- Two parts in a row: the last block of the first is connected with the first block of the second. -/
theorem Lowers.append {mid : Table DraftBlock} {next : Segment} (hf : Lowers old mid segment R) (ht : Lowers mid new next R') :
    Lowers old (connectAt new segment.last next.first) ⟨segment.first, next.last⟩
      (fun blocks first after => ∃ between, R blocks first between ∧ R' blocks between after) := by
  have hle := hf.le
  have hle' := ht.le
  have hlt : mid.length > segment.last := hf.last_lt
  have hge' := ht.last_ge
  have hsl := hf.seal next.first
  -- what was sealed before the second part was added is the same after it
  have hs : ∀ id < mid.length, (connectAt new segment.last next.first)[id]? = (connectAt mid segment.last next.first)[id]? := by
    intro id hid
    by_cases hl : id = segment.last
    · simp only [connectAt, List.getElem?_modify, ht.kept _ hid]
    · rw [getElem?_connectAt_ne hl, getElem?_connectAt_ne hl, ht.kept id hid]
  refine ⟨by rw [length_connectAt]; omega, ?_, le_trans hle hge', by rw [length_connectAt]; exact ht.last_lt, ?_, ?_⟩
  · intro id hid
    rw [hs id (by omega), hsl.kept id hid]
  · intro id block hid hne hb
    by_cases hm : id < mid.length
    · rw [hs id hm] at hb
      exact hsl.closed id block hid hb
    · rw [getElem?_connectAt_ne (by omega)] at hb
      exact ht.closed id block (by omega) hne hb
  · intro blocks after hsh
    refine ⟨next.first, hsl.holds blocks after fun id hid hm => ?_, ht.realized blocks after ?_⟩
    · rw [length_connectAt] at hm
      rw [hsh id hid (by rw [length_connectAt]; omega), hs id hm]
    · intro id hid hnew
      rw [hsh id (by omega) (by rw [length_connectAt]; exact hnew), getElem?_connectAt_ne (by omega)]

/-- A sealed part behind an open block is a part that ends with this block. -/
theorem Sealed.lowers {block : DraftBlock} (h : Sealed (old.push block) new P) (first : BlockId) : Lowers old new ⟨first, old.length⟩
      (fun blocks _ next => blocks[old.length]? = some (block.closeWith next) ∧ P blocks) := by
  have hle := h.le
  rw [length_push] at hle
  have hb : new[old.length]? = some block := by rw [h.kept old.length (by simp), getElem?_push_length]
  refine ⟨by omega, ?_, le_refl _, hle, ?_, ?_⟩
  · intro id hid
    rw [h.kept id (by rw [length_push]; omega), getElem?_push_of_lt hid]
  · intro id found hge hne hf
    simp only at hne
    exact h.closed id found (by rw [length_push]; omega) hf
  · intro blocks next hs
    refine ⟨?_, h.holds blocks next (hs.later (by simp))⟩
    rw [hs old.length (le_refl _) (by omega), hb]
    rfl

/-- A part that ends with its last block, put behind an open block that is closed afterwards. -/
theorem Lowers.close {block : DraftBlock} (h : Lowers (old.push block) new segment R) (terminator : Terminator) :
    Lowers old (closeAt new old.length terminator) ⟨old.length, segment.last⟩
      (fun blocks first next => blocks[first]? = some ⟨block.statements, terminator, block.expressions⟩ ∧
        R blocks segment.first next) := by
  have hle := h.le
  have hge := h.last_ge
  rw [length_push] at hle hge
  have hb : new[old.length]? = some block := by rw [h.kept old.length (by simp), getElem?_push_length]
  refine ⟨by rw [length_closeAt]; omega, ?_, by simp only; omega, by rw [length_closeAt]; exact h.last_lt, ?_, ?_⟩
  · intro id hid
    rw [getElem?_closeAt_ne (by omega), h.kept id (by rw [length_push]; omega), getElem?_push_of_lt hid]
  · intro id found hid hne hf
    by_cases hs : id = old.length
    · subst hs
      rw [getElem?_closeAt_self hb] at hf
      exact Option.some.inj hf ▸ rfl
    · rw [getElem?_closeAt_ne hs] at hf
      exact h.closed id found (by rw [length_push]; omega) hne hf
  · intro blocks next hsh
    refine ⟨?_, h.realized blocks next fun id hid hlt => ?_⟩
    · rw [hsh old.length (le_refl _) (by rw [length_closeAt]; omega), getElem?_closeAt_self hb]
      rfl
    · rw [length_push] at hid
      rw [hsh id (by omega) (by rw [length_closeAt]; exact hlt), getElem?_closeAt_ne (by omega)]

end

end TagAsm.Lower
