import TagAsm.Proofs.Merging

/-!
# In which order blocks are found, and from where

The search of `Body.reachable` keeps a stack, on which a block can stand more than once. It finds the blocks in the order in which the
recursive search sees them (`Preorder`), that is to say each block before what it leads to, and all that the positive side of a branch
leads to before the negative side. `Body.predecessors` searches the other way around, but takes down the same edges.
-/

namespace TagAsm.Flow

open List

/-- The recursive search: the blocks that have been seen, in this order, before and after a block is searched. A block is seen before
what it leads to, and the positive side of a branch is searched before the negative one. -/
inductive Preorder (blocks : Table Block) : List BlockId → BlockId → List BlockId → Prop where
  | again {seen : List BlockId} {id : BlockId} (hseen : id ∈ seen) : Preorder blocks seen id seen
  | sink {seen : List BlockId} {id : BlockId} (hnew : id ∉ seen) (hends : blocks[id]?.map Block.terminator = some .sink) :
    Preorder blocks seen id (seen ++ [id])
  | jump {seen res : List BlockId} {id tgt : BlockId} (hnew : id ∉ seen)
    (hends : blocks[id]?.map Block.terminator = some (.jump tgt)) (hnext : Preorder blocks (seen ++ [id]) tgt res) :
    Preorder blocks seen id res
  | branch {seen between res : List BlockId} {id pos neg : BlockId} {cond : ValueId} (hnew : id ∉ seen)
    (hends : blocks[id]?.map Block.terminator = some (.branch cond pos neg))
    (hpositive : Preorder blocks (seen ++ [id]) pos between) (hnegative : Preorder blocks between neg res) :
    Preorder blocks seen id res

/-- Blocks are searched one after the other. -/
def PreorderAll (blocks : Table Block) : List BlockId → List BlockId → List BlockId → Prop
  | seen, [], res => res = seen
  | seen, id :: ids, res => ∃ between, Preorder blocks seen id between ∧ PreorderAll blocks between ids res

section

variable {blocks : Table Block} {seen res : List BlockId} {id : BlockId}

/-- What was seen stays seen, and what is searched is seen. -/
theorem Preorder.covers (h : Preorder blocks seen id res) : seen ⊆ res ∧ id ∈ res := by
  induction h with
  | again hs => exact ⟨Subset.refl _, hs⟩
  | sink => simp
  | jump _ _ _ ih => exact ⟨fun _ hx => ih.1 (mem_append_left _ hx), ih.1 (by simp)⟩
  | branch _ _ _ _ ihp ihn => exact ⟨fun _ hx => ihn.1 (ihp.1 (mem_append_left _ hx)), ihn.1 (ihp.1 (by simp))⟩

theorem Preorder.unique (h : Preorder blocks seen id res) {other : List BlockId} (h' : Preorder blocks seen id other) : other = res := by
  induction h generalizing other with
  | again hs =>
    cases h' with
    | again => rfl
    | sink hnew | jump hnew | branch hnew => exact absurd hs hnew
  | sink hnew he =>
    cases h' with
    | again hs => exact absurd hs hnew
    | sink => rfl
    | jump _ he' | branch _ he' => cases he.symm.trans he'
  | jump hnew he _ ih =>
    cases h' with
    | again hs => exact absurd hs hnew
    | sink _ he' | branch _ he' => cases he.symm.trans he'
    | jump _ he' hnx =>
      cases he.symm.trans he'
      exact ih hnx
  | branch hnew he _ _ ihp ihn =>
    cases h' with
    | again hs => exact absurd hs hnew
    | sink _ he' | jump _ he' => cases he.symm.trans he'
    | branch _ he' hp hn =>
      cases he.symm.trans he'
      cases ihp hp
      exact ihn hn

theorem PreorderAll.of_append {first rest : List BlockId} (h : PreorderAll blocks seen (first ++ rest) res) :
    ∃ between, PreorderAll blocks seen first between ∧ PreorderAll blocks between rest res := by
  induction first generalizing seen with
  | nil => exact ⟨seen, rfl, h⟩
  | cons id first ih =>
    obtain ⟨next, hn, h⟩ := h
    obtain ⟨between, hf, hr⟩ := ih h
    exact ⟨between, ⟨next, hn, hf⟩, hr⟩

/-- To search a block is to search what it leads to. -/
theorem Preorder.of_successors {block : Block} (hnew : id ∉ seen) (hb : blocks[id]? = some block)
    (h : PreorderAll blocks (seen ++ [id]) block.terminator.successors res) : Preorder blocks seen id res := by
  have he : blocks[id]?.map Block.terminator = some block.terminator := by rw [hb, Option.map_some]
  cases ht : block.terminator with
  | sink =>
    rw [ht] at h he
    cases h
    exact .sink hnew he
  | jump tgt =>
    rw [ht] at h he
    obtain ⟨_, hnx, rfl⟩ := h
    exact .jump hnew he hnx
  | branch cond pos neg =>
    rw [ht] at h he
    simp only [Terminator.successors] at h
    split at h
    · -- the two sides are one block, which has been seen when it is its turn again
      rename_i hs
      obtain ⟨_, hp, rfl⟩ := h
      exact .branch hnew he hp (.again (hs ▸ hp.covers.2))
    · obtain ⟨between, hp, _, hn, rfl⟩ := h
      exact .branch hnew he hp hn

end

namespace Body

variable {body : Body} {blocks : Table Block}

/-- The stack is searched from the top, as if each block on it were searched recursively. -/
theorem visit_preorderAll (hedges : EdgesInRange blocks) (fuel : Nat) (stack visited : List BlockId)
    (hf : stack.length + 2 * (blocks.length - visited.length) ≤ fuel) (h : Searching blocks stack visited) :
    ∃ res, visit blocks fuel stack visited = .ok res ∧ PreorderAll blocks visited stack res := by
  refine search_induction (P := fun fuel stack visited =>
    ∃ res, visit blocks fuel stack visited = .ok res ∧ PreorderAll blocks visited stack res) hedges Perm.refl ?_ ?_ ?_
    fuel stack visited hf h
  · intro fuel visited _
    exact ⟨visited, by cases fuel <;> rfl, rfl⟩
  · rintro fuel id stack visited hmem ⟨res, hv, ho⟩
    exact ⟨res, by simp [visit, hmem, hv], visited, .again hmem, ho⟩
  · rintro fuel id block stack visited hmem hb ⟨res, hv, ho⟩
    obtain ⟨between, hsc, hs⟩ := ho.of_append
    refine ⟨res, ?_, between, .of_successors hmem hb hsc, hs⟩
    simp only [visit, if_neg hmem, Table.fetch_eq_ok_iff.mpr hb]
    exact hv

theorem edgesFrom_snoc (ids : List BlockId) {id : BlockId} {block : Block} (hb : body.blocks[id]? = some block) :
    body.edgesFrom (ids ++ [id]) = body.edgesFrom ids ++ block.terminator.successors.map fun tgt => (id, tgt) := by
  simp [edgesFrom, hb]

/-- The edges that are taken down are those that leave the blocks that were followed. -/
theorem follow_explored (hedges : EdgesInRange body.blocks) (fuel : Nat) (stack visited : List BlockId)
    (hfl : stack.length + 2 * (body.blocks.length - visited.length) ≤ fuel) (h : Searching body.blocks stack visited) :
    ∃ res, follow body.blocks fuel stack visited (body.edgesFrom visited) = .ok (body.edgesFrom res) ∧
      Explored body.blocks stack visited res := by
  refine search_induction (P := fun fuel stack visited =>
    ∃ res, follow body.blocks fuel stack visited (body.edgesFrom visited) = .ok (body.edgesFrom res) ∧
      Explored body.blocks stack visited res) hedges reverse_perm ?_ ?_ ?_ fuel stack visited hfl h
  · intro fuel visited h
    exact ⟨visited, by cases fuel <;> rfl, h.explored⟩
  · rintro fuel id stack visited hmem ⟨res, hf, he⟩
    exact ⟨res, by simp [follow, hmem, hf], he.of_skip hmem⟩
  · rintro fuel id block stack visited hmem hb ⟨res, hf, he⟩
    refine ⟨res, ?_, he.of_visit hb (reverse_perm _)⟩
    simp only [follow, if_neg hmem, Table.fetch_eq_ok_iff.mpr hb, ← hf, edgesFrom_snoc visited hb]
    rfl

variable (hentry : body.entry < body.blocks.length) (hedges : EdgesInRange body.blocks)
include hentry hedges

/-- With the entry and the edges in range, the search ends. It finds exactly the blocks that a path from the entry leads to, each once,
and in the order of the recursive search. -/
theorem reachable_preorder : ∃ ids, body.reachable = .ok ids ∧ ids.Nodup ∧ (∀ id, id ∈ ids ↔ Reaches body.blocks body.entry id) ∧
      ∀ order, Preorder body.blocks [] body.entry order ↔ order = ids := by
  obtain ⟨ids, heq, hnodup, -, hmem⟩ := reachable_eq_ok hentry hedges
  obtain ⟨found, hfound, _, horder, rfl⟩ := visit_preorderAll hedges (2 * body.blocks.length + 1) [body.entry] []
    (by simp; omega) (searching_entry hentry)
  cases heq.symm.trans hfound
  exact ⟨ids, heq, hnodup, hmem, fun order => ⟨fun h => horder.unique h, fun h => h ▸ horder⟩⟩

/-- The edges that are taken down from the entry are those that leave the blocks that can be reached. -/
theorem follow_entry : ∃ ids found, body.reachable = .ok ids ∧ (∀ id ∈ ids, id < body.blocks.length) ∧
      (∀ id, id ∈ ids ↔ Reaches body.blocks body.entry id) ∧
      follow body.blocks (2 * body.blocks.length + 1) [body.entry] [] [] = .ok (body.edgesFrom found) ∧
      ∀ src tgt, (src, tgt) ∈ body.edgesFrom found ↔ src ∈ ids ∧ Leads body.blocks src tgt := by
  obtain ⟨ids, hr, -, hlt, hmem⟩ := reachable_eq_ok hentry hedges
  obtain ⟨found, hf, he⟩ := follow_explored hedges (2 * body.blocks.length + 1) [body.entry] [] (by simp; omega) (searching_entry hentry)
  refine ⟨ids, found, hr, hlt, hmem, hf, fun src tgt => ?_⟩
  rw [mem_edgesFrom, (he.mem_iff src).trans (hmem src).symm]

/-- A round of merging starts from the edges that the predecessors tell. -/
theorem mem_edgesFrom_reachable : ∃ ids table, body.reachable = .ok ids ∧ body.predecessors = .ok table ∧
      ∀ src tgt, (src, tgt) ∈ body.edgesFrom ids ↔ ∃ sources, (tgt, sources) ∈ table ∧ src ∈ sources := by
  obtain ⟨ids, found, hr, hlt, -, hf, hedge⟩ := follow_entry hentry hedges
  refine ⟨ids, _, hr, by rw [predecessors, hf]; rfl, fun src tgt => ?_⟩
  rw [mem_edgesFrom, ← hedge]
  constructor
  · intro he
    obtain ⟨hs, hl⟩ := (hedge src tgt).mp he
    refine ⟨_, mem_map.mpr ⟨tgt, mem_filter.mpr ⟨mem_range.mpr (hedges src tgt hl), ?_⟩, rfl⟩, ?_⟩
    · exact decide_eq_true (Or.inr (mem_map_of_mem he))
    · exact mem_filter.mpr ⟨mem_range.mpr (hlt src hs), decide_eq_true he⟩
  · rintro ⟨sources, hmem, hs⟩
    obtain ⟨id, -, heq⟩ := mem_map.mp hmem
    cases heq
    exact of_decide_eq_true (mem_filter.mp hs).2

omit hentry hedges

/-- A body that comes back to its entry. Both its other blocks can be reached in two ways, and the last one not at all. -/
def maze : Body where
  returnValue := 0
  parameters := []
  locals := []
  temporaries := []
  values := [⟨0, none, 0⟩]
  blocks := [⟨[], .sink, []⟩, ⟨[], .branch 0 3 2, [10]⟩, ⟨[], .branch 0 0 3, [11]⟩, ⟨[], .jump 1, []⟩, ⟨[], .jump 2, []⟩]
  entry := 1
  sink := 0

/-- The positive side comes first, and is not searched again from the negative one. -/
theorem reachable_preorder_maze :
    maze.reachable = .ok [1, 3, 2, 0] ∧ ∀ order, Preorder maze.blocks [] 1 order ↔ order = [1, 3, 2, 0] := by
  obtain ⟨ids, hids, -, -, horder⟩ := @reachable_preorder maze (by decide) (by decide)
  cases hids
  exact ⟨rfl, horder⟩

include hentry hedges

/-- The blocks with their predecessors are exactly the blocks that can be reached, and the predecessors of each are exactly the blocks that
can be reached and lead to it. -/
theorem predecessors_exact : ∃ ids table, body.reachable = .ok ids ∧ body.predecessors = .ok table ∧
      (table.map Prod.fst).Pairwise (· < ·) ∧ (∀ id, id ∈ table.map Prod.fst ↔ id ∈ ids) ∧
      ∀ entry ∈ table, entry.2.Pairwise (· < ·) ∧ ∀ source, source ∈ entry.2 ↔ source ∈ ids ∧ Leads body.blocks source entry.1 := by
  obtain ⟨ids, found, hreachable, hlt, hmem, hfollow, hedge⟩ := follow_entry hentry hedges
  have hids : body.blocks.ids.Pairwise (· < ·) := pairwise_lt_range
  -- a block other than the entry is reached through an edge, and an edge that is taken down leads to a block that is reached
  have hkey : ∀ id, (id < body.blocks.length ∧ (id = body.entry ∨ id ∈ (body.edgesFrom found).map Prod.snd)) ↔ id ∈ ids := by
    intro id
    constructor
    · rintro ⟨-, rfl | hid⟩
      · exact (hmem _).mpr .refl
      · obtain ⟨⟨source, target⟩, hpair, rfl⟩ := mem_map.mp hid
        obtain ⟨hsource, hleads⟩ := (hedge source target).mp hpair
        exact (hmem _).mpr (((hmem _).mp hsource).tail hleads)
    · intro hid
      refine ⟨hlt id hid, ?_⟩
      rcases Relation.ReflTransGen.cases_tail ((hmem id).mp hid) with heq | ⟨source, hsource, hleads⟩
      · exact Or.inl heq
      · exact Or.inr (mem_map_of_mem ((hedge source id).mpr ⟨(hmem source).mpr hsource, hleads⟩))
  refine ⟨ids, _, hreachable, by rw [predecessors, hfollow]; rfl, ?_, fun id => ?_, ?_⟩
  · simpa [Function.comp_def] using hids.filter _
  · simpa [Function.comp_def, Table.ids] using hkey id
  · intro entry hentry
    obtain ⟨id, -, rfl⟩ := mem_map.mp hentry
    refine ⟨hids.filter _, fun source => ?_⟩
    rw [mem_filter, decide_eq_true_eq, hedge, Table.ids, mem_range]
    exact ⟨fun h => h.2, fun h => ⟨hlt source h.1, h⟩⟩

omit hentry hedges

/-- The block that cannot be reached is no predecessor of the one that it leads to. -/
theorem predecessors_exact_maze : maze.predecessors = .ok [(0, [2]), (1, [3]), (2, [1]), (3, [1, 2])] ∧
    ∀ source, source ∈ [1] ↔ source ∈ [1, 3, 2, 0] ∧ Leads maze.blocks source 2 := by
  obtain ⟨ids, table, hids, htable, -, -, hsources⟩ := @predecessors_exact maze (by decide) (by decide)
  cases hids
  cases htable
  exact ⟨rfl, (hsources (2, [1]) (by decide)).2⟩

end Body

end TagAsm.Flow
