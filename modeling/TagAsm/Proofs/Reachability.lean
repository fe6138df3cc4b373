import Mathlib.Data.List.Nodup
import Mathlib.Data.List.Perm.Subperm
import Mathlib.Logic.Relation
import TagAsm.Flow.Graph

/-!
# Which blocks the search finds

The search of `Body.reachable` runs on fuel. Here: with all edges in range the fuel is enough, the search does not fault, and
what it finds is exactly what a path from the entry leads to, each block once.
-/

namespace TagAsm.Flow

open List

/-- Block `src` exists and can go to `tgt`. -/
def Leads (blocks : Table Block) (src tgt : BlockId) : Prop :=
  ∃ block, blocks[src]? = some block ∧ tgt ∈ block.terminator.successors

/-- A path leads from the first block to the second. -/
abbrev Reaches (blocks : Table Block) : BlockId → BlockId → Prop := Relation.ReflTransGen (Leads blocks)

/-- Every edge leads to a block that exists. -/
def EdgesInRange (blocks : Table Block) : Prop := ∀ src tgt, Leads blocks src tgt → tgt < blocks.length

instance (blocks : Table Block) : Decidable (EdgesInRange blocks) :=
  decidable_of_iff (∀ block ∈ blocks, ∀ tgt ∈ block.terminator.successors, tgt < blocks.length)
    ⟨fun h _ tgt ⟨block, hblock, ht⟩ => h block (mem_of_getElem? hblock) tgt ht, fun h block hblock tgt ht =>
      let ⟨src, hsource⟩ := getElem?_of_mem hblock
      h src tgt ⟨block, hsource, ht⟩⟩

/-- A terminator goes to two blocks at most. -/
theorem Terminator.length_successors_le (term : Terminator) : term.successors.length ≤ 2 := by
  cases term with
  | branch _ pos neg =>
    simp only [successors]
    split <;> simp
  | jump | sink => simp [successors]

/-- Distinct numbers below a bound are not more than the bound. -/
theorem length_le_of_nodup_of_lt {ids : List Nat} {bound : Nat} (hnd : ids.Nodup) (hlt : ∀ id ∈ ids, id < bound) :
    ids.length ≤ bound := by
  have hsub : ids ⊆ range bound := fun id hid => mem_range.mpr (hlt id hid)
  simpa using (subperm_of_subset hnd hsub).length_le

namespace Body

/-- A search under way: all blocks at hand exist, none was visited twice, and what leaves the visited blocks is visited or
waits on the stack. -/
structure Searching (blocks : Table Block) (stack visited : List BlockId) : Prop where
  stack_lt : ∀ id ∈ stack, id < blocks.length
  visited_lt : ∀ id ∈ visited, id < blocks.length
  nodup : visited.Nodup
  front : ∀ id ∈ visited, ∀ tgt, Leads blocks id tgt → tgt ∈ visited ∨ tgt ∈ stack

/-- What a search that starts with these blocks on the stack and those visited has to find. -/
structure Explored (blocks : Table Block) (stack visited res : List BlockId) : Prop where
  keeps : ∀ id ∈ visited, id ∈ res
  covers : ∀ id ∈ stack, id ∈ res
  nodup : res.Nodup
  inRange : ∀ id ∈ res, id < blocks.length
  closed : ∀ id ∈ res, ∀ tgt, Leads blocks id tgt → tgt ∈ res
  sound : ∀ id ∈ res, id ∈ visited ∨ ∃ start ∈ stack, Reaches blocks start id

section

variable {blocks : Table Block} {stack visited res : List BlockId} {id : BlockId} {block : Block}

/-- With nothing on the stack the search is over. -/
theorem Searching.explored (h : Searching blocks [] visited) : Explored blocks [] visited visited := by
  refine ⟨fun _ hid => hid, by simp, h.nodup, h.visited_lt, fun id hid tgt ht => ?_, fun _ hid => Or.inl hid⟩
  exact (h.front id hid tgt ht).resolve_right not_mem_nil

/-- A block that was visited before is taken off the stack. -/
theorem Searching.skip (h : Searching blocks (id :: stack) visited) (hmem : id ∈ visited) : Searching blocks stack visited := by
  refine ⟨fun x hx => h.stack_lt x (mem_cons_of_mem _ hx), h.visited_lt, h.nodup, fun x hx tgt ht => ?_⟩
  rcases h.front x hx tgt ht with hold | hw
  · exact Or.inl hold
  · rcases mem_cons.mp hw with rfl | hw
    · exact Or.inl hmem
    · exact Or.inr hw

/-- A block is visited, and what it leads to goes on the stack. -/
theorem Searching.visit (h : Searching blocks (id :: stack) visited) (hmem : id ∉ visited) (he : EdgesInRange blocks)
    (hb : blocks[id]? = some block) {targets : List BlockId} (htr : targets ~ block.terminator.successors) :
    Searching blocks (targets ++ stack) (visited ++ [id]) := by
  refine ⟨?_, ?_, ?_, ?_⟩
  · intro x hx
    rcases mem_append.mp hx with hx | hx
    · exact he id x ⟨block, hb, htr.subset hx⟩
    · exact h.stack_lt x (mem_cons_of_mem _ hx)
  · intro x hx
    rcases mem_append.mp hx with hx | hx
    · exact h.visited_lt x hx
    · rw [mem_singleton.mp hx]
      exact h.stack_lt id mem_cons_self
  · refine nodup_append.mpr ⟨h.nodup, nodup_singleton id, fun x hx y hy heq => ?_⟩
    exact hmem (mem_singleton.mp hy ▸ heq ▸ hx)
  · intro x hx tgt ht
    rcases mem_append.mp hx with hx | hx
    · rcases h.front x hx tgt ht with hold | hw
      · exact Or.inl (mem_append_left _ hold)
      · rcases mem_cons.mp hw with rfl | hw
        · exact Or.inl (mem_append_right _ mem_cons_self)
        · exact Or.inr (mem_append_right _ hw)
    · obtain rfl := mem_singleton.mp hx
      obtain ⟨found, hf, ht⟩ := ht
      cases hb.symm.trans hf
      exact Or.inr (mem_append_left _ (htr.symm.subset ht))

theorem Explored.of_skip (h : Explored blocks stack visited res) (hmem : id ∈ visited) : Explored blocks (id :: stack) visited res := by
  refine ⟨h.keeps, ?_, h.nodup, h.inRange, h.closed, fun x hx => ?_⟩
  · exact forall_mem_cons.mpr ⟨h.keeps id hmem, h.covers⟩
  · rcases h.sound x hx with hold | ⟨start, hs, hp⟩
    · exact Or.inl hold
    · exact Or.inr ⟨start, mem_cons_of_mem _ hs, hp⟩

theorem Explored.of_visit {targets : List BlockId} (h : Explored blocks (targets ++ stack) (visited ++ [id]) res)
    (hb : blocks[id]? = some block) (ht : targets ~ block.terminator.successors) :
    Explored blocks (id :: stack) visited res := by
  refine ⟨fun x hx => h.keeps x (mem_append_left _ hx), ?_, h.nodup, h.inRange, h.closed, fun x hx => ?_⟩
  · exact forall_mem_cons.mpr ⟨h.keeps id (mem_append_right _ mem_cons_self), fun x hx => h.covers x (mem_append_right _ hx)⟩
  · rcases h.sound x hx with hold | ⟨start, hs, hp⟩
    · rcases mem_append.mp hold with hold | hnew
      · exact Or.inl hold
      · exact Or.inr ⟨id, mem_cons_self, mem_singleton.mp hnew ▸ Relation.ReflTransGen.refl⟩
    · rcases mem_append.mp hs with hn | hs
      · exact Or.inr ⟨id, mem_cons_self, Relation.ReflTransGen.head ⟨block, hb, ht.subset hn⟩ hp⟩
      · exact Or.inr ⟨start, mem_cons_of_mem _ hs, hp⟩

end

/-- One unit of fuel for each block on the stack, and two for each block that was not visited, are enough, in whatever order the
blocks that a block leads to are put on the stack. -/
theorem search_induction {blocks : Table Block} (he : EdgesInRange blocks) {arrange : List BlockId → List BlockId}
    (ha : ∀ ids, arrange ids ~ ids) {P : Nat → List BlockId → List BlockId → Prop}
    (done : ∀ fuel visited, Searching blocks [] visited → P fuel [] visited)
    (skip : ∀ fuel id stack visited, id ∈ visited → P fuel stack visited → P (fuel + 1) (id :: stack) visited)
    (next : ∀ fuel id block stack visited, id ∉ visited → blocks[id]? = some block →
      P fuel (arrange block.terminator.successors ++ stack) (visited ++ [id]) → P (fuel + 1) (id :: stack) visited)
    (fuel : Nat) (stack visited : List BlockId) (hf : stack.length + 2 * (blocks.length - visited.length) ≤ fuel)
    (h : Searching blocks stack visited) : P fuel stack visited := by
  induction fuel generalizing stack visited with
  | zero =>
    obtain rfl : stack = [] := eq_nil_of_length_eq_zero (by omega)
    exact done 0 visited h
  | succ fuel ih =>
    cases stack with
    | nil => exact done (fuel + 1) visited h
    | cons id stack =>
      rw [length_cons] at hf
      by_cases hmem : id ∈ visited
      · exact skip fuel id stack visited hmem (ih stack visited (by omega) (h.skip hmem))
      · have hid := h.stack_lt id mem_cons_self
        have hb : blocks[id]? = some blocks[id] := getElem?_eq_getElem hid
        have hn := h.visit hmem he hb (ha _)
        -- the visit takes one block off the stack and puts two there, and uses up one of those that were not visited
        have htwo := blocks[id].terminator.length_successors_le
        have hs := (ha blocks[id].terminator.successors).length_eq
        have hr := length_le_of_nodup_of_lt hn.nodup hn.visited_lt
        rw [length_append, length_singleton] at hr
        exact next fuel id _ stack visited hmem hb (ih _ _ (by rw [length_append, length_append, length_singleton]; omega) hn)

/-- With enough fuel the search finds what it has to. -/
theorem visit_explored {blocks : Table Block} (hed : EdgesInRange blocks) (fuel : Nat) (stack visited : List BlockId)
    (hf : stack.length + 2 * (blocks.length - visited.length) ≤ fuel) (h : Searching blocks stack visited) :
    ∃ res, visit blocks fuel stack visited = .ok res ∧ Explored blocks stack visited res := by
  refine search_induction (P := fun fuel stack visited =>
    ∃ res, visit blocks fuel stack visited = .ok res ∧ Explored blocks stack visited res) hed Perm.refl ?_ ?_ ?_
    fuel stack visited hf h
  · intro fuel visited h
    exact ⟨visited, by cases fuel <;> rfl, h.explored⟩
  · rintro fuel id stack visited hmem ⟨res, hv, he⟩
    exact ⟨res, by simp [visit, hmem, hv], he.of_skip hmem⟩
  · rintro fuel id block stack visited hmem hb ⟨res, hv, he⟩
    refine ⟨res, ?_, he.of_visit hb (.refl _)⟩
    simp only [visit, if_neg hmem, Table.fetch_eq_ok_iff.mpr hb]
    exact hv

/-- From the entry, the search finds exactly the blocks that a path leads to. -/
theorem Explored.mem_iff {blocks : Table Block} {entry : BlockId} {res : List BlockId} (h : Explored blocks [entry] [] res)
    (id : BlockId) : id ∈ res ↔ Reaches blocks entry id := by
  constructor
  · intro hid
    rcases h.sound id hid with hid | ⟨start, hs, hp⟩
    · exact absurd hid not_mem_nil
    · rw [mem_singleton] at hs
      exact hs ▸ hp
  · intro hp
    induction hp with
    | refl => exact h.covers _ (by simp)
    | tail _ hst ih => exact h.closed _ ih _ hst

theorem searching_entry {blocks : Table Block} {entry : BlockId} (he : entry < blocks.length) : Searching blocks [entry] [] :=
  ⟨forall_mem_singleton.mpr he, by simp, nodup_nil, by simp⟩

/-- With the entry and the edges in range the search ends without a fault, and finds exactly the blocks that a path from the
entry leads to, each once. -/
theorem reachable_eq_ok {body : Body} (hen : body.entry < body.blocks.length) (he : EdgesInRange body.blocks) :
    ∃ ids, body.reachable = .ok ids ∧ ids.Nodup ∧ (∀ id ∈ ids, id < body.blocks.length) ∧
      ∀ id, id ∈ ids ↔ Reaches body.blocks body.entry id := by
  obtain ⟨ids, heq, hex⟩ := visit_explored he (2 * body.blocks.length + 1) [body.entry] [] (by simp; omega) (searching_entry hen)
  exact ⟨ids, heq, hex.nodup, hex.inRange, hex.mem_iff⟩

end Body

end TagAsm.Flow
