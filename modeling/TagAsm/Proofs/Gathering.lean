import TagAsm.Proofs.Merging

/-!
# Merging gathers blocks

Folding puts what a block holds in front of what another block holds. So at any time in a round, each block holds what some of
the blocks held when the round began, in a row that ends with the block itself; a folded block holds nothing, and every block
stands in one row (`MergeRound.Gathers`). The folded blocks are out of reach and all others are not (`MergeRound.Thins`), so
what is dropped after the round is the folded blocks and nothing else. Together: the blocks that are left hold rows of the
blocks that were there (`Body.Gathered`), and rows of rows are rows again.
-/

namespace TagAsm.Flow

open List

/-- Part of what a block holds: it is handed on when the block is folded, and the edges are no part of it. -/
structure Block.IsPart {α : Type} (part : Block → List α) : Prop where
  of_nothing : ∀ block : Block, part { block with statements := [], expressions := [] } = []
  of_after : ∀ block first : Block, part (block.after first) = part first ++ part block
  of_terminator : ∀ (block : Block) (terminator : Terminator), part { block with terminator } = part block

theorem Block.isPart_statements : IsPart statements := ⟨fun _ => rfl, fun _ _ => rfl, fun _ _ => rfl⟩

theorem Block.isPart_expressions : IsPart expressions := ⟨fun _ => rfl, fun _ _ => rfl, fun _ _ => rfl⟩

theorem flatMap_flatten {α β : Type} (rows : List (List α)) (f : α → List β) :
    rows.flatten.flatMap f = rows.flatMap fun row => row.flatMap f := by
  rw [← flatMap_id, flatMap_assoc]
  rfl

/-- Where what `f` has for `id` was put in front of what it has for `tgt`, nothing was lost and nothing was doubled. -/
theorem perm_flatMap_move {α : Type} {f g : Nat → List α} {id tgt size : Nat} (hid : id < size) (ht : tgt < size)
    (hne : tgt ≠ id) (hg : ∀ x, g x = if x = id then [] else if x = tgt then f id ++ f tgt else f x) :
    ((range size).flatMap g).Perm ((range size).flatMap f) := by
  -- the two numbers first, and then the others
  have hf : (range size).Perm (id :: tgt :: (range size).filter fun x => x ≠ id ∧ x ≠ tgt) := by
    have hn : (id :: tgt :: (range size).filter fun x => x ≠ id ∧ x ≠ tgt).Nodup := by
      simp [hne.symm, nodup_range.filter]
    rw [perm_ext_iff_of_nodup nodup_range hn]
    intro x
    grind
  have ho : ((range size).filter fun x => x ≠ id ∧ x ≠ tgt).flatMap g = ((range size).filter fun x => x ≠ id ∧ x ≠ tgt).flatMap f := by
    refine flatMap_congr fun x hx => ?_
    have hx' : x ≠ id ∧ x ≠ tgt := by simpa using (mem_filter.mp hx).2
    rw [hg, if_neg hx'.1, if_neg hx'.2]
  refine (hf.flatMap_right g).trans (.trans (.of_eq ?_) (hf.flatMap_right f).symm)
  simp only [flatMap_cons, ho, hg id, hg tgt, if_pos, if_neg hne, nil_append, append_assoc]

/-- Numbers that are listed once each give all there is, if there is nothing for the others. -/
theorem perm_flatMap_of_nodup {α : Type} {f : Nat → List α} {order : List Nat} {size : Nat} (hn : order.Nodup)
    (hlt : ∀ id ∈ order, id < size) (hr : ∀ id < size, id ∉ order → f id = []) :
    (order.flatMap f).Perm ((range size).flatMap f) := by
  have hl : order.Perm ((range size).filter (· ∈ order)) := by
    rw [perm_ext_iff_of_nodup hn (nodup_range.filter _)]
    intro id
    rw [mem_filter, mem_range, decide_eq_true_eq]
    exact ⟨fun h => ⟨hlt id h, h⟩, fun h => h.2⟩
  have ho : ((range size).filter (fun id => !decide (id ∈ order))).flatMap f = [] := by
    rw [flatMap_eq_nil_iff]
    intro id hid
    rw [mem_filter, mem_range, Bool.not_eq_true', decide_eq_false_iff_not] at hid
    exact hr id hid.1 hid.2
  have hall := (filter_append_perm (· ∈ order) (range size)).flatMap_right f
  rw [flatMap_append, ho, append_nil] at hall
  exact (hl.flatMap_right f).trans hall

namespace Body

/-! ## Parts of blocks -/

section

variable {α : Type} {part : Block → List α} {body : Body}

/-- A part of the block with this number, if there is one. -/
def partAt (part : Block → List α) (body : Body) (id : BlockId) : List α := (body.blocks[id]?.map part).getD []

theorem partAt_eq {id : BlockId} {block : Block} (h : body.blocks[id]? = some block) : body.partAt part id = part block := by
  rw [partAt, h]
  rfl

theorem map_part_blocks (part : Block → List α) (body : Body) :
    body.blocks.map part = (range body.blocks.length).map (body.partAt part) := by
  refine ext_getElem (by simp) fun id hid hid' => ?_
  have hlt : id < body.blocks.length := by simpa using hid
  rw [getElem_map, getElem_map, getElem_range, partAt_eq (getElem?_eq_getElem hlt)]

variable {Live : BlockId → Prop} {id tgt : BlockId} {block : Block} {sources : List BlockId}

/-- What the folded block held is in front of what its target holds now. -/
theorem Foldable.partAt_fold (hp : Block.IsPart part) (h : Foldable body Live id tgt block sources) (x : BlockId) :
    (body.fold id tgt block sources).partAt part x =
      if x = id then [] else if x = tgt then body.partAt part id ++ body.partAt part tgt else body.partAt part x := by
  obtain ⟨goal, hg⟩ := h.exists_block h.live_target
  have hn : ∀ before : Block, part (if x ∈ sources then
      { before with statements := [], expressions := [], terminator := before.terminator.retarget id tgt }
      else { before with statements := [], expressions := [] }) = [] := by
    intro before
    split
    · exact (hp.of_terminator { before with statements := [], expressions := [] } _).trans (hp.of_nothing before)
    · exact hp.of_nothing before
  have hs : ∀ before : Block, part (if x ∈ sources then { before with terminator := before.terminator.retarget id tgt }
      else before) = part before := by
    intro before
    split
    · exact hp.of_terminator before _
    · rfl
  cases hx : body.blocks[x]? with
  | none =>
    have hid : x ≠ id := fun heq => absurd (hx.symm.trans (heq ▸ h.found)) (by simp)
    have ht : x ≠ tgt := fun heq => absurd (hx.symm.trans (heq ▸ hg)) (by simp)
    simp [partAt, fold, getElem?_modify, hx, hid, ht]
  | some before =>
    by_cases hid : x = id
    · subst hid
      simpa [partAt, fold, hx, h.target_ne] using hn before
    · rw [if_neg hid]
      by_cases ht : x = tgt
      · subst ht
        rw [if_pos rfl, partAt_eq h.found, partAt_eq hx, ← hp.of_after, ← hs]
        simp [partAt, fold, hx, Ne.symm hid, Block.after]
      · rw [if_neg ht, partAt_eq hx, ← hs]
        simp [partAt, fold, hx, Ne.symm hid, Ne.symm ht]

theorem Renumbered.partAt_idxOf (hp : Block.IsPart part) {res : Body} {order : List BlockId}
    (h : Renumbered body res order) {old : BlockId} (hold : old ∈ order) :
    res.partAt part (order.idxOf old) = body.partAt part old := by
  rw [partAt, h.block_eq old hold, partAt, Option.map_map]
  congr 2
  exact funext fun before => hp.of_terminator before _

/-- A path leads where it led before, past the folded block. -/
theorem Foldable.reaches_fold (h : Foldable body Live id tgt block sources) {x : BlockId} (hp : Reaches body.blocks body.entry x) :
    Live x ∧ Reaches (body.fold id tgt block sources).blocks (redirect id tgt body.entry) (redirect id tgt x) := by
  induction hp with
  | refl => exact ⟨h.live_entry, .refl⟩
  | @tail mid last _ hs ih =>
    obtain ⟨hm, hr⟩ := ih
    refine ⟨h.closed mid hm last hs, ?_⟩
    obtain ⟨found, hf, hl⟩ := hs
    by_cases hid : mid = id
    · -- the folded block goes to its target, and the path is there already
      subst hid
      cases hf.symm.trans h.found
      rw [h.jumps, Terminator.mem_successors_jump] at hl
      subst hl
      rw [redirect_self] at hr
      rwa [redirect_of_ne _ h.target_ne]
    · rw [redirect_of_ne _ hid] at hr
      refine hr.tail ⟨_, h.getElem?_fold hm hid hf, ?_⟩
      rw [Block.renumber, Terminator.mem_successors_renumber]
      refine ⟨last, ?_, rfl⟩
      split
      · exact hl
      · exact hl

end

/-! ## Bodies made of rows -/

/-- The blocks of `merged` hold what the blocks of `body` in these rows hold. Every block stands in one row, the sink at the end
of the new sink's, and alone there if it cannot be reached. The values stay as they are. -/
structure Gathered (body merged : Body) (rows : List (List BlockId)) : Prop where
  holds : ∀ {α : Type} {part : Block → List α}, Block.IsPart part →
    merged.blocks.map part = rows.map fun row => row.flatMap (body.partAt part)
  perm : rows.flatten.Perm (List.range body.blocks.length)
  sink_last : ∃ front, rows[merged.sink]? = some (front ++ [body.sink]) ∧ (¬Reaches body.blocks body.entry body.sink → front = [])
  sink_reached : Reaches merged.blocks merged.entry merged.sink → Reaches body.blocks body.entry body.sink
  merged_eq : merged = { body with blocks := merged.blocks, entry := merged.entry, sink := merged.sink }

namespace Gathered

variable {body merged : Body} {rows : List (List BlockId)}

theorem refl (hs : body.sink < body.blocks.length) : Gathered body body ((range body.blocks.length).map ([·])) := by
  refine ⟨fun {α} {part} _ => ?_, ?_, ⟨[], ?_, fun _ => rfl⟩, fun hp => hp, rfl⟩
  · rw [map_part_blocks, map_map]
    exact map_congr_left fun id _ => (flatMap_singleton _ id).symm
  · rw [← flatMap_def, flatMap_singleton']
  · simp [hs]

theorem length_rows (h : Gathered body merged rows) : rows.length = merged.blocks.length := by
  simpa using (congrArg length (h.holds Block.isPart_statements)).symm

variable {α : Type} {part : Block → List α}

/-- What a new block holds is what its row holds. -/
theorem partAt_merged (h : Gathered body merged rows) (hpr : Block.IsPart part) (place : BlockId) :
    merged.partAt part place = (rows[place]?.getD []).flatMap (body.partAt part) := by
  have hp := congrArg (fun parts => parts[place]?.getD []) (h.holds hpr)
  simp only [getElem?_map] at hp
  rw [partAt, hp]
  cases rows[place]? <;> rfl

theorem trans {last : Body} {others : List (List BlockId)} (h : Gathered body merged rows) (hl : Gathered merged last others) :
    Gathered body last (others.map fun other => other.flatMap fun place => rows[place]?.getD []) := by
  refine ⟨fun {α} {part} hpr => ?_, ?_, ?_, fun hp => h.sink_reached (hl.sink_reached hp), ?_⟩
  · rw [hl.holds hpr, map_map]
    refine map_congr_left fun other _ => ?_
    rw [Function.comp_apply, flatMap_assoc]
    exact flatMap_congr fun place _ => h.partAt_merged hpr place
  · have hr : (range merged.blocks.length).map (fun place => rows[place]?.getD []) = rows := by
      rw [← h.length_rows]
      refine ext_getElem (by simp) fun place hpl hpl' => ?_
      simp [hpl']
    have hfl := hl.perm.flatMap_right fun place => rows[place]?.getD []
    rw [flatMap_def (l := range _), hr] at hfl
    rw [← flatMap_def, ← flatMap_flatten]
    exact hfl.trans h.perm
  · obtain ⟨front, hf, ha⟩ := h.sink_last
    obtain ⟨front', hf', ha'⟩ := hl.sink_last
    refine ⟨(front'.flatMap fun place => rows[place]?.getD []) ++ front, ?_, fun hu => ?_⟩
    · simp [hf, hf']
    · rw [ha hu, ha' fun hp => hu (h.sink_reached hp)]
      rfl
  · have hb := hl.merged_eq
    rw [h.merged_eq] at hb
    exact hb

/-- Nothing is lost and nothing is doubled. -/
theorem perm_part (h : Gathered body merged rows) (hp : Block.IsPart part) :
    (merged.blocks.flatMap part).Perm (body.blocks.flatMap part) := by
  have hm : merged.blocks.flatMap part = rows.flatten.flatMap (body.partAt part) := by
    rw [flatMap_def, h.holds hp, ← flatMap_def, ← flatMap_flatten]
  have hb : body.blocks.flatMap part = (range body.blocks.length).flatMap (body.partAt part) := by
    rw [flatMap_def, map_part_blocks, ← flatMap_def]
  rw [hm, hb]
  exact h.perm.flatMap_right _

/-- What a block holds stays together. -/
theorem exists_infix (h : Gathered body merged rows) {id : BlockId} {block : Block} (hb : body.blocks[id]? = some block) :
    ∃ (place : BlockId) (last : Block), merged.blocks[place]? = some last ∧
      ∀ {α : Type} {part : Block → List α}, Block.IsPart part → part block <:+: part last := by
  have hmem : id ∈ rows.flatten := h.perm.mem_iff.mpr (mem_range.mpr (List.getElem?_eq_some_iff.mp hb).1)
  obtain ⟨row, hrow, hid⟩ := mem_flatten.mp hmem
  obtain ⟨place, hp⟩ := getElem?_of_mem hrow
  have hlt : place < merged.blocks.length := h.length_rows ▸ (List.getElem?_eq_some_iff.mp hp).1
  refine ⟨place, merged.blocks[place], getElem?_eq_getElem hlt, fun {α} {part} hpr => ?_⟩
  have hh := h.partAt_merged hpr place
  rw [partAt_eq (getElem?_eq_getElem hlt), hp, Option.getD_some] at hh
  obtain ⟨front, rest, rfl⟩ := append_of_mem hid
  rw [hh, flatMap_append, flatMap_cons, partAt_eq hb]
  exact ⟨front.flatMap (body.partAt part), rest.flatMap (body.partAt part), by rw [append_assoc]⟩

end Gathered

end Body

/-! ## Rounds -/

namespace MergeRound

/-- How far a round over the blocks `ids` of a body has come: the blocks that it folded are among them, and the others of them
can still be reached. -/
structure Thins (start : Body) (ids : List BlockId) (round : MergeRound) : Prop where
  wired : round.body.Wired
  body_eq : round.body = { start with blocks := round.body.blocks, entry := round.body.entry }
  length_eq : round.body.blocks.length = start.blocks.length
  nodup : round.folded.Nodup
  folded_mem : ∀ id ∈ round.folded, id ∈ ids ∧ id ≠ start.sink
  reached : ∀ id ∈ ids, id ∉ round.folded → Reaches round.body.blocks round.body.entry id

/-- What the blocks hold in a round: rows of blocks of the body it started with. -/
structure Gathers (start : Body) (ids : List BlockId) (rows : BlockId → List BlockId) (round : MergeRound) : Prop where
  holds : ∀ {α : Type} {part : Block → List α}, Block.IsPart part →
    ∀ id, round.body.partAt part id = (rows id).flatMap (start.partAt part)
  perm : ((List.range start.blocks.length).flatMap rows).Perm (List.range start.blocks.length)
  row_folded : ∀ id ∈ round.folded, rows id = []
  row_left : ∀ id, id ∉ round.folded → ∃ front, rows id = front ++ [id] ∧ (id ∉ ids → front = [])

/-- A path from the entry stays among the blocks of the round that were not folded. -/
theorem Sane.of_reaches {round : MergeRound} {ids : List BlockId} (h : round.Sane ids) {id : BlockId}
    (hp : Reaches round.body.blocks round.body.entry id) : id ∈ ids ∧ id ∉ round.folded := by
  induction hp with
  | refl => exact h.entry_mem
  | tail _ hs ih => exact (h.closed _ ih.1 ih.2 _ hs).1

section

variable {start : Body} {ids : List BlockId} {round : MergeRound} {id : BlockId}

/-- Looking at one block: it is folded, or the round stays as it is. -/
theorem Thins.step (h : round.Thins start ids) (hsn : round.Sane ids) (hid : id ∈ ids) : (round.step id).Thins start ids := by
  unfold MergeRound.step
  split
  · rename_i tgt block ht
    have hf := hsn.foldable hid ht
    have hsk : id ≠ start.sink := by
      intro heq
      have hs : round.body.sink = start.sink := by rw [h.body_eq]
      have hlv := (h.wired.leaves id block hf.found).mpr (heq.trans hs.symm)
      rw [hf.jumps] at hlv
      cases hlv
    refine ⟨hf.wired_fold h.wired, ?_, (Body.length_blocks_fold ..).trans h.length_eq, ?_, ?_, ?_⟩
    · have heq := h.body_eq
      unfold Body.fold
      rw [heq]
    · exact nodup_append.mpr ⟨h.nodup, nodup_singleton id, fun x hx y hy heq =>
        hf.live_id.2 (mem_singleton.mp hy ▸ heq ▸ hx)⟩
    · intro x hx
      rcases mem_append.mp hx with hx | hx
      · exact h.folded_mem x hx
      · rw [mem_singleton.mp hx]
        exact ⟨hid, hsk⟩
    · intro x hx hl
      rw [mem_append, mem_singleton, not_or] at hl
      have hp := (hf.reaches_fold (h.reached x hx hl.1)).2
      rwa [redirect_of_ne _ hl.2] at hp
  · exact h

theorem Gathers.step {rows : BlockId → List BlockId} (h : round.Gathers start ids rows) (hs : round.Sane ids)
    (hth : round.Thins start ids) (hid : id ∈ ids) : ∃ rows, (round.step id).Gathers start ids rows := by
  unfold MergeRound.step
  split
  · rename_i tgt block ht
    have hf := hs.foldable hid ht
    have hlt : ∀ x, x ∈ ids ∧ x ∉ round.folded → x < start.blocks.length := fun x hx => hth.length_eq ▸ hs.inRange x hx.1
    refine ⟨fun x => if x = id then [] else if x = tgt then rows id ++ rows tgt else rows x, ?_, ?_, ?_, ?_⟩
    · intro α part hp x
      rw [hf.partAt_fold hp, h.holds hp, h.holds hp, h.holds hp]
      split
      · rfl
      · split
        · exact flatMap_append.symm
        · rfl
    · exact (perm_flatMap_move (hlt id hf.live_id) (hlt tgt hf.live_target) hf.target_ne fun _ => rfl).trans h.perm
    · intro x hx
      rcases mem_append.mp hx with hx | hx
      · have htr : x ≠ tgt := fun heq => hf.live_target.2 (heq ▸ hx)
        have hid : x ≠ id := fun heq => hf.live_id.2 (heq ▸ hx)
        rw [if_neg hid, if_neg htr]
        exact h.row_folded x hx
      · rw [if_pos (mem_singleton.mp hx)]
    · intro x hx
      rw [mem_append, mem_singleton, not_or] at hx
      obtain ⟨front, hfr, ha⟩ := h.row_left x hx.1
      rw [if_neg hx.2]
      split
      · rename_i heq
        refine ⟨rows id ++ front, ?_, fun hnot => absurd (heq ▸ hf.live_target.1) hnot⟩
        rw [← heq, hfr, append_assoc]
      · exact ⟨front, hfr, ha⟩
  · exact ⟨rows, h⟩

variable {pruned : Body} {order : List BlockId}

/-- After the round, the blocks that are kept are those that were not folded. -/
theorem Thins.mem_order (h : round.Thins start ids) (hsn : round.Sane ids)
    (hall : ∀ id < start.blocks.length, id = start.sink ∨ id ∈ ids) (hp : Body.Pruned round.body pruned order)
    (id : BlockId) : id ∈ order ↔ id < start.blocks.length ∧ id ∉ round.folded := by
  have hs : round.body.sink = start.sink := by rw [h.body_eq]
  have hk : start.sink ∉ round.folded := fun hmem => (h.folded_mem _ hmem).2 rfl
  constructor
  · intro hid
    refine ⟨h.length_eq ▸ hp.inRange id hid, ?_⟩
    rcases (hp.mem_iff id).mp hid with hpt | rfl
    · exact (hsn.of_reaches hpt).2
    · rwa [hs]
  · rintro ⟨hlt, hl⟩
    rw [hp.mem_iff, hs]
    rcases hall id hlt with heq | hmem
    · exact Or.inr heq
    · exact Or.inl (h.reached id hmem hl)

/-- After the round there are fewer blocks, by the number of those that were folded. -/
theorem Thins.count (h : round.Thins start ids) (hs : round.Sane ids)
    (hall : ∀ id < start.blocks.length, id = start.sink ∨ id ∈ ids) (hp : Body.Pruned round.body pruned order) :
    round.folded.length + pruned.blocks.length = start.blocks.length := by
  have hmem := h.mem_order hs hall hp
  have hn : (round.folded ++ order).Nodup := nodup_append'.mpr ⟨h.nodup, hp.nodup, fun id hf hid => ((hmem id).mp hid).2 hf⟩
  have hpr : (round.folded ++ order).Perm (range start.blocks.length) := by
    rw [perm_ext_iff_of_nodup hn nodup_range]
    intro id
    rw [mem_append, mem_range, hmem]
    have hlt : id ∈ round.folded → id < start.blocks.length := fun hf =>
      h.length_eq ▸ hs.inRange id (h.folded_mem id hf).1
    by_cases hf : id ∈ round.folded
    · simp [hf, hlt hf]
    · simp [hf]
  rw [hp.length_blocks, ← length_append, hpr.length_eq, length_range]

/-- After the round, what is left holds rows of what was there. -/
theorem Gathers.gathered {rows : BlockId → List BlockId} (h : round.Gathers start ids rows) (ht : round.Thins start ids)
    (hs : round.Sane ids) (hr : ∀ id, id ∈ ids ↔ Reaches start.blocks start.entry id)
    (hall : ∀ id < start.blocks.length, id = start.sink ∨ id ∈ ids) (hp : Body.Pruned round.body pruned order) :
    Body.Gathered start pruned (order.map rows) := by
  have hmem := ht.mem_order hs hall hp
  have hsn : round.body.sink = start.sink := by rw [ht.body_eq]
  have hpl : pruned.sink = order.idxOf round.body.sink := by rw [hp.result_eq]
  refine ⟨fun {α} {part} hpr => ?_, ?_, ?_, fun hpt => ?_, ?_⟩
  · rw [Body.map_part_blocks, hp.length_blocks, map_map]
    refine ext_getElem (by simp) fun place hpl hpl' => ?_
    have hlt : place < order.length := by simpa using hpl'
    have hat := hp.partAt_idxOf hpr (getElem_mem hlt)
    rw [hp.nodup.idxOf_getElem place hlt] at hat
    simp only [getElem_map, getElem_range, Function.comp_apply, hat, h.holds hpr]
  · refine (perm_flatMap_of_nodup hp.nodup (fun id hid => ((hmem id).mp hid).1) fun id hlt hid => ?_).trans h.perm
    by_contra hrow
    exact hid ((hmem id).mpr ⟨hlt, fun hf => hrow (h.row_folded id hf)⟩)
  · obtain ⟨front, hfr, ha⟩ := h.row_left start.sink fun hf => (ht.folded_mem _ hf).2 rfl
    refine ⟨front, ?_, fun hu => ha fun hmem => hu ((hr _).mp hmem)⟩
    rw [hpl, getElem?_map, getElem?_idxOf hp.sink_mem, Option.map_some, hsn, hfr]
  · have he : pruned.entry = order.idxOf round.body.entry := by rw [hp.result_eq]
    rw [hpl, he] at hpt
    obtain ⟨old, hold, heq, hpt⟩ := hp.exists_reaches hp.entry_mem hpt
    rw [idxOf_inj hold] at heq
    rw [← hr, ← hsn, ← heq]
    exact (hs.of_reaches hpt).1
  · have hrs := hp.result_eq
    rw [ht.body_eq] at hrs
    rw [hrs]

end

end MergeRound

end TagAsm.Flow
