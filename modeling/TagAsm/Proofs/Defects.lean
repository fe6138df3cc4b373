import TagAsm.Proofs.Renumbering

/-!
# What the check of a body finds

`Body.defect?` looks at the blocks one by one and then at what can be reached. Here: a body whose entry exists passes exactly
if each block is fine on its own and no block but the sink is out of reach.
-/

namespace TagAsm

open List

/-- A row with an id of the table is among the entries under that id. -/
theorem Table.mem_entries {α : Type} {rows : Table α} {id : Nat} {row : α} : (id, row) ∈ rows.entries ↔ rows[id]? = some row := by
  simp only [entries, mem_map, Prod.mk.injEq]
  constructor
  · rintro ⟨⟨_, _⟩, hmem, rfl, rfl⟩
    exact mk_mem_zipIdx_iff_getElem?.mp hmem
  · intro h
    exact ⟨(row, id), mk_mem_zipIdx_iff_getElem?.mpr h, rfl, rfl⟩

theorem Table.map_fst_entries {α : Type} (rows : Table α) : rows.entries.map Prod.fst = rows.ids := by
  simp [entries, ids, zipIdx_map_snd, range_eq_range', Function.comp_def]

theorem Table.map_snd_entries {α : Type} (rows : Table α) : rows.entries.map Prod.snd = rows := by
  simp [entries, Function.comp_def]

namespace Flow.Body

/-- A block whose edges lead to blocks of the body, whose values are values of the body, and which leaves the body if and only
if it is the sink. -/
structure Fine (body : Body) (id : BlockId) (block : Block) : Prop where
  edges : ∀ tgt ∈ block.terminator.successors, tgt < body.blocks.length
  values : ∀ val ∈ block.values, val < body.values.length
  leaves : block.terminator = .sink ↔ id = body.sink

variable {body : Body} {id : BlockId} {block : Block}

/-- Nothing is wrong with a block exactly if it is fine. -/
theorem blockDefect?_eq_none_iff : body.blockDefect? id block = none ↔ body.Fine id block := by
  have hs : body.sinkDefect? id block = none ↔ (block.terminator = .sink ↔ id = body.sink) := by
    unfold sinkDefect?
    split <;> split <;> simp_all
  have hp : body.blockDefect? id block = none ↔ body.danglingEdge? id block = none ∧
      body.undeclaredValue? id block = none ∧ body.sinkDefect? id block = none := by
    simp [blockDefect?]
  rw [hp, hs]
  simp only [danglingEdge?, undeclaredValue?, Option.map_eq_none_iff, find?_eq_none, decide_eq_true_eq, Nat.not_le]
  exact ⟨fun ⟨he, hv, hl⟩ => ⟨he, hv, hl⟩, fun h => ⟨h.edges, h.values, h.leaves⟩⟩

/-- Blocks that are fine have their edges in range. -/
theorem edgesInRange_of_fine (h : ∀ id block, body.blocks[id]? = some block → body.Fine id block) : EdgesInRange body.blocks := by
  rintro src tgt ⟨block, hb, ht⟩
  exact (h src block hb).edges tgt ht

/-- A body without defects: its blocks are fine, and all but the sink can be reached. -/
structure Intact (body : Body) : Prop where
  fine : ∀ id block, body.blocks[id]? = some block → body.Fine id block
  reached : ∀ id < body.blocks.length, id = body.sink ∨ Reaches body.blocks body.entry id

/-- What a defect says is so in the body. -/
def Defective (body : Body) : Defect → Prop
  | .unreachable id => id < body.blocks.length ∧ id ≠ body.sink ∧ ¬ Reaches body.blocks body.entry id
  | .danglingEdge id target =>
    ∃ block, body.blocks[id]? = some block ∧ target ∈ block.terminator.successors ∧ body.blocks.length ≤ target
  | .undeclaredValue id value => ∃ block, body.blocks[id]? = some block ∧ value ∈ block.values ∧ body.values.length ≤ value
  | .straySink id => ∃ block, body.blocks[id]? = some block ∧ block.terminator = .sink ∧ id ≠ body.sink
  | .missingSink id => ∃ block, body.blocks[id]? = some block ∧ block.terminator ≠ .sink ∧ id = body.sink

theorem defective_of_blockDefect? {defect : Defect} (hb : body.blocks[id]? = some block)
    (h : body.blockDefect? id block = some defect) : body.Defective defect := by
  have hp : ((body.danglingEdge? id block).or ((body.undeclaredValue? id block).or (body.sinkDefect? id block))) = some defect := by
    simpa [blockDefect?] using h
  rcases Option.or_eq_some_iff.mp hp with he | ⟨-, hr⟩
  · obtain ⟨tgt, hf, rfl⟩ := Option.map_eq_some_iff.mp he
    exact ⟨block, hb, mem_of_find?_eq_some hf, by simpa using find?_some hf⟩
  rcases Option.or_eq_some_iff.mp hr with hv | ⟨-, hs⟩
  · obtain ⟨val, hf, rfl⟩ := Option.map_eq_some_iff.mp hv
    exact ⟨block, hb, mem_of_find?_eq_some hf, by simpa using find?_some hf⟩
  · unfold sinkDefect? at hs
    split at hs <;> split at hs <;> cases hs
    · exact ⟨block, hb, ‹_›, ‹_›⟩
    · exact ⟨block, hb, ‹_›, ‹_›⟩

/-- The check gives a defect that the body has, or there is none. -/
theorem defect?_cases (he : body.entry < body.blocks.length) :
    (∃ defect, body.defect? = .ok (some defect) ∧ body.Defective defect) ∨ body.defect? = .ok none ∧ body.Intact := by
  unfold defect?
  split
  · rename_i defect hfd
    obtain ⟨⟨id, block⟩, hmem, hd⟩ := exists_of_findSome?_eq_some hfd
    exact .inl ⟨defect, rfl, defective_of_blockDefect? (Table.mem_entries.mp hmem) hd⟩
  · rename_i hn
    have hfn : ∀ id block, body.blocks[id]? = some block → body.Fine id block := fun id block hb =>
      blockDefect?_eq_none_iff.mp (findSome?_eq_none_iff.mp hn (id, block) (Table.mem_entries.mpr hb))
    obtain ⟨ids, hr, -, -, hmem⟩ := reachable_eq_ok he (edgesInRange_of_fine hfn)
    simp only [hr, bind, Except.bind, pure, Except.pure]
    cases hf : body.blocks.ids.find? fun id => id ≠ body.sink ∧ id ∉ ids with
    | some id =>
      have hid : id ≠ body.sink ∧ ¬ Reaches body.blocks body.entry id := by simpa [hmem] using find?_some hf
      exact .inl ⟨.unreachable id, rfl, mem_range.mp (mem_of_find?_eq_some hf), hid⟩
    | none =>
      refine .inr ⟨rfl, hfn, fun id hid => ?_⟩
      simpa [hmem, or_iff_not_imp_left] using find?_eq_none.mp hf id (mem_range.mpr hid)

theorem Intact.not_defective (h : body.Intact) (defect : Defect) : ¬ body.Defective defect := by
  cases defect with
  | unreachable id => exact fun ⟨hid, hne, hnot⟩ => hnot ((h.reached id hid).resolve_left hne)
  | danglingEdge id tgt => exact fun ⟨block, hb, hmem, hle⟩ => Nat.not_lt.mpr hle ((h.fine id block hb).edges tgt hmem)
  | undeclaredValue id val => exact fun ⟨block, hb, hmem, hle⟩ => Nat.not_lt.mpr hle ((h.fine id block hb).values val hmem)
  | straySink id => exact fun ⟨block, hb, hs, hne⟩ => hne ((h.fine id block hb).leaves.mp hs)
  | missingSink id => exact fun ⟨block, hb, hs, heq⟩ => hs ((h.fine id block hb).leaves.mpr heq)

/-- The check passes exactly if every block is fine, and every block but the sink can be reached. -/
theorem defect?_eq_ok_none_iff (he : body.entry < body.blocks.length) : body.defect? = .ok none ↔ body.Intact := by
  rcases defect?_cases he with ⟨defect, hf, hd⟩ | ⟨hn, hi⟩
  · rw [hf]
    exact ⟨fun heq => absurd (Except.ok.inj heq) (Option.some_ne_none _), fun h => absurd hd (h.not_defective defect)⟩
  · exact ⟨fun _ => hi, fun _ => hn⟩

/-- A body that passes the check has its edges in order. -/
theorem wired_of_defect?_eq_none (he : body.entry < body.blocks.length) (hs : body.sink < body.blocks.length)
    (h : body.defect? = .ok none) : body.Wired := by
  have hf := ((defect?_eq_ok_none_iff he).mp h).fine
  exact ⟨he, hs, edgesInRange_of_fine hf, fun id block hb => (hf id block hb).leaves⟩

/-- A body as it should be: one of its blocks leaves it, and that is its sink. -/
structure Proper (body : Body) : Prop where
  edges : ∀ (id : BlockId) (block : Block), body.blocks[id]? = some block → ∀ tgt ∈ block.terminator.successors, tgt < body.blocks.length
  values : ∀ (id : BlockId) (block : Block), body.blocks[id]? = some block → ∀ val ∈ block.values, val < body.values.length
  reached : ∀ id < body.blocks.length, id = body.sink ∨ Reaches body.blocks body.entry id
  leaves : ∀ id, (∃ block, body.blocks[id]? = some block ∧ block.terminator = .sink) ↔ id = body.sink

/-- A proper body is one that has a sink and no defect. -/
theorem proper_iff : body.Proper ↔ body.sink < body.blocks.length ∧ body.Intact := by
  constructor
  · intro h
    obtain ⟨last, hls, hs⟩ := (h.leaves body.sink).mpr rfl
    refine ⟨(List.getElem?_eq_some_iff.mp hls).1, fun id block hb => ⟨h.edges id block hb, h.values id block hb, ?_⟩, h.reached⟩
    rw [← h.leaves id]
    exact ⟨fun hl => ⟨block, hb, hl⟩, fun ⟨other, ho, hl⟩ => Option.some.inj (hb.symm.trans ho) ▸ hl⟩
  · rintro ⟨hs, h⟩
    have hls := getElem?_eq_getElem hs
    refine ⟨fun id block hb => (h.fine id block hb).edges, fun id block hb => (h.fine id block hb).values, h.reached,
      fun id => ⟨fun ⟨block, hb, hl⟩ => (h.fine id block hb).leaves.mp hl, ?_⟩⟩
    rintro rfl
    exact ⟨_, hls, (h.fine _ _ hls).leaves.mpr rfl⟩

/-- The check of a body whose entry exists always has an answer. A defect that it finds is one of the body, and it finds none
exactly if the body is intact. That there is a sink is not checked: the proper bodies are those that pass and have one. -/
theorem defect?_finds (body : Body) (hentry : body.entry < body.blocks.length) :
    ∃ found, body.defect? = .ok found ∧ (∀ defect, found = some defect → body.Defective defect) ∧
      (found = none ↔ body.Intact) ∧ (body.Proper ↔ body.sink < body.blocks.length ∧ found = none) := by
  rw [proper_iff]
  rcases defect?_cases hentry with ⟨defect, hfound, hdefect⟩ | ⟨hnone, hintact⟩
  · have hnot : ¬ body.Intact := fun h => h.not_defective defect hdefect
    exact ⟨some defect, hfound, fun _ heq => Option.some.inj heq ▸ hdefect, by simp [hnot], by simp [hnot]⟩
  · exact ⟨none, hnone, by simp, by simp [hintact], by simp [hintact]⟩

/-- A body that goes round in its only block. -/
def endless (sink : BlockId) : Body := ⟨0, [], [], [], [⟨0, none, 0⟩], [⟨[], .jump 0, []⟩], 0, sink⟩

theorem defect?_finds_endless : (endless 0).Defective (.missingSink 0) ∧ ¬ (endless 0).Proper := by
  obtain ⟨found, hfound, hdefect, -, hproper⟩ := defect?_finds (endless 0) (by decide)
  obtain rfl : some (.missingSink 0) = found := Except.ok.inj ((by decide : _ = (endless 0).defect?).trans hfound)
  exact ⟨hdefect _ rfl, by simp [hproper]⟩

/-- A body passes whose sink is not among its blocks. -/
theorem endless_passes : (endless 1).defect? = .ok none ∧ ¬ (endless 1).Proper :=
  ⟨by decide, fun h => absurd (proper_iff.mp h).1 (by decide)⟩

end Flow.Body

end TagAsm
