import TagAsm.Proofs.Lists
import TagAsm.Proofs.Reachability

/-!
# What renumbering does to a body

`Body.compact` lists the blocks to keep in a new order and calls every block by its place there. Here: if no edge leads out of
the blocks that are kept, it does not fault, and every kept block is found under its new number with its edges renumbered.
`Body.prune` is the case of the blocks that can be reached and the sink; what it yields has the entry first and the sink last,
and nothing in between is out of reach.
-/

namespace TagAsm

open List Relation.ReflTransGen

namespace Flow

/-- Renumbers the blocks that a terminator can go to. -/
def Terminator.renumber (num : BlockId → BlockId) : Terminator → Terminator
  | .branch condition positive negative => .branch condition (num positive) (num negative)
  | .jump tgt => .jump (num tgt)
  | .sink => .sink

/-- Renumbers the blocks that a block can go to. -/
def Block.renumber (number : BlockId → BlockId) (block : Block) : Block :=
  { block with terminator := block.terminator.renumber number }

namespace Terminator

variable {tgt : BlockId}

@[simp] theorem mem_successors_branch {cond : ValueId} {pos neg : BlockId} :
    tgt ∈ (branch cond pos neg).successors ↔ tgt = pos ∨ tgt = neg := by
  simp only [successors]
  split
  · rename_i h
    simp [h]
  · simp

@[simp] theorem mem_successors_jump {goal : BlockId} : tgt ∈ (jump goal).successors ↔ tgt = goal := by
  simp [successors]

@[simp] theorem not_mem_successors_sink : tgt ∉ sink.successors := by
  simp [successors]

variable {num : BlockId → BlockId} {term : Terminator}

/-- A terminator can go to a block after renumbering if it could go to a block with that new number. -/
theorem mem_successors_renumber : tgt ∈ (term.renumber num).successors ↔ ∃ old ∈ term.successors, num old = tgt := by
  cases term with
  | branch cond pos neg =>
    simp only [renumber, mem_successors_branch]
    constructor
    · rintro (rfl | rfl)
      · exact ⟨pos, Or.inl rfl, rfl⟩
      · exact ⟨neg, Or.inr rfl, rfl⟩
    · rintro ⟨old, rfl | rfl, rfl⟩
      · exact Or.inl rfl
      · exact Or.inr rfl
  | jump goal => simp [renumber, eq_comm]
  | sink => simp [renumber]

/-- Renumbering neither makes nor unmakes a sink. -/
@[simp] theorem renumber_eq_sink_iff : term.renumber num = .sink ↔ term = .sink := by
  cases term <;> simp [renumber]

/-- Renaming does not fault where the names of the successors are there. -/
theorem rename_eq_ok {name : BlockId → Except Fault BlockId} (h : ∀ tgt ∈ term.successors, name tgt = .ok (num tgt)) :
    term.rename name = .ok (term.renumber num) := by
  cases term with
  | branch cond pos neg =>
    simp only [rename, h pos (by simp), h neg (by simp)]
    rfl
  | jump tgt =>
    simp only [rename, h tgt (by simp)]
    rfl
  | sink => rfl

end Terminator

namespace Body

/-- `res` holds the blocks of `body` that stand in `order`, numbered by their places there. No edge leads out of `order`. -/
structure Renumbered (body res : Body) (order : List BlockId) : Prop where
  nodup : order.Nodup
  inRange : ∀ id ∈ order, id < body.blocks.length
  closed : ∀ id ∈ order, ∀ tgt, Leads body.blocks id tgt → tgt ∈ order
  entry_mem : body.entry ∈ order
  sink_mem : body.sink ∈ order
  length_blocks : res.blocks.length = order.length
  block_eq : ∀ id ∈ order, res.blocks[order.idxOf id]? = body.blocks[id]?.map (Block.renumber order.idxOf)
  result_eq : res = { body with
    blocks := res.blocks, entry := order.idxOf body.entry, sink := order.idxOf body.sink }

variable {order : List BlockId} {id : BlockId}

/-- A kept block has a new number: its place. -/
theorem newNumber_of_mem {size : Nat} (hlt : id < size) (hmem : id ∈ order) : newNumber size order id = .ok (order.idxOf id) := by
  have hsm := isSome_idxOf?.mpr hmem
  obtain ⟨place, hp⟩ := Option.isSome_iff_exists.mp hsm
  rw [newNumber, if_pos hlt, idxOf_eq_getD_idxOf?, hp]
  rfl

variable {body : Body} {keep : List BlockId}

/-- The blocks that are kept: the entry, the sink, and the blocks asked for that exist. -/
theorem mem_compactOrder : id ∈ body.compactOrder keep ↔ id = body.entry ∨ id = body.sink ∨ id ∈ keep ∧ id < body.blocks.length := by
  have hl : id ∈ (if body.sink = body.entry then [] else [body.sink]) ↔ id = body.sink ∧ body.sink ≠ body.entry := by
    split
    · rename_i h
      simp [h]
    · rename_i h
      simp [h]
  simp only [compactOrder, mem_append, mem_cons, mem_filter, Table.ids, mem_range, hl, decide_eq_true_eq]
  grind

theorem nodup_compactOrder (body : Body) (keep : List BlockId) : (body.compactOrder keep).Nodup := by
  have hids : body.blocks.ids.Nodup := nodup_range
  have hm := hids.filter fun id => decide (id ∈ keep ∧ id ≠ body.entry ∧ id ≠ body.sink)
  unfold compactOrder
  split
  · simpa using hm
  · rename_i hne
    rw [nodup_append]
    refine ⟨by simpa using hm, by simp, ?_⟩
    intro a ha b hb hab
    rw [mem_singleton] at hb
    subst hb hab
    rcases mem_cons.mp ha with h | h
    · exact hne h
    · simp at h

/-- Renumbering does not fault if no edge leads out of what is kept. -/
theorem compact_eq_ok (keep : List BlockId) (he : body.entry < body.blocks.length) (hsn : body.sink < body.blocks.length)
    (hc : ∀ id ∈ body.compactOrder keep, ∀ tgt, Leads body.blocks id tgt → tgt ∈ body.compactOrder keep) :
    ∃ result, body.compact keep = .ok result ∧ Renumbered body result (body.compactOrder keep) := by
  obtain ⟨order, ho⟩ : ∃ order, order = body.compactOrder keep := ⟨_, rfl⟩
  have hlt : ∀ id ∈ order, id < body.blocks.length := by
    intro id hid
    rw [ho, mem_compactOrder] at hid
    rcases hid with rfl | rfl | ⟨-, h⟩
    · exact he
    · exact hsn
    · exact h
  have hentry_mem : body.entry ∈ order := by
    rw [ho, mem_compactOrder]
    exact Or.inl rfl
  have hsink_mem : body.sink ∈ order := by
    rw [ho, mem_compactOrder]
    exact Or.inr (Or.inl rfl)
  have hnd : order.Nodup := ho ▸ nodup_compactOrder body keep
  rw [← ho] at hc ⊢
  have hn : ∀ id ∈ order, newNumber body.blocks.length order id = .ok (order.idxOf id) := fun id hid =>
    newNumber_of_mem (hlt id hid) hid
  obtain ⟨step, hst⟩ : ∃ step : BlockId → Except Fault Block, step = fun id => do
      let block ← body.blocks.fetch .block id
      let terminator ← block.terminator.rename (newNumber body.blocks.length order)
      return { block with terminator } := ⟨_, rfl⟩
  have hb : ∀ id ∈ order, ∃ block, body.blocks[id]? = some block ∧ step id = .ok (block.renumber order.idxOf) := by
    intro id hid
    have hin := hlt id hid
    have hf : body.blocks[id]? = some body.blocks[id] := getElem?_eq_getElem hin
    have hr : body.blocks[id].terminator.rename (newNumber body.blocks.length order) =
        .ok (body.blocks[id].terminator.renumber order.idxOf) :=
      Terminator.rename_eq_ok fun tgt ht => hn tgt (hc id hid tgt ⟨_, hf, ht⟩)
    refine ⟨body.blocks[id], hf, ?_⟩
    simp only [hst, Table.fetch_of_lt hin]
    exact congrArg (Except.map _) hr
  obtain ⟨blocks, hbs⟩ := exists_mapM_eq_ok step order fun id hid =>
    let ⟨_, _, h⟩ := hb id hid
    ⟨_, h⟩
  have hall := (mapM_eq_ok_iff_forall₂ step order blocks).mp hbs
  refine ⟨{ body with blocks, entry := order.idxOf body.entry, sink := order.idxOf body.sink }, ?_, hnd, hlt, hc,
    hentry_mem, hsink_mem, hall.length_eq.symm, ?_, rfl⟩
  · unfold compact
    simp only [← ho, ← hst, hbs, hn _ hentry_mem, hn _ hsink_mem]
    rfl
  · intro id hid
    obtain ⟨block, hf, ha⟩ := hb id hid
    obtain ⟨renumbered, hnew, heq⟩ := getElem?_of_forall₂ hall (getElem?_idxOf hid)
    rw [ha] at heq
    rw [hnew, hf, ← Except.ok.inj heq]
    rfl

namespace Renumbered

variable {body res : Body} {order : List BlockId}

section

variable (h : Renumbered body res order)
include h

/-- Every block of the result is a block that was kept. -/
theorem exists_eq_idxOf {id : BlockId} (hid : id < res.blocks.length) : ∃ old ∈ order, order.idxOf old = id := by
  have hlt : id < order.length := h.length_blocks ▸ hid
  exact ⟨order[id], getElem_mem hlt, h.nodup.idxOf_getElem id hlt⟩

/-- The number of a kept block is in range. -/
theorem idxOf_lt {old : BlockId} (hold : old ∈ order) : order.idxOf old < res.blocks.length := by
  rw [h.length_blocks]
  exact idxOf_lt_length_of_mem hold

/-- A block of the result is a block of the body with its edges renamed. -/
theorem exists_before {id : BlockId} {block : Block} (hb : res.blocks[id]? = some block) :
    ∃ (old : BlockId) (before : Block), body.blocks[old]? = some before ∧ before.renumber order.idxOf = block := by
  obtain ⟨old, hold, rfl⟩ := h.exists_eq_idxOf (List.getElem?_eq_some_iff.mp hb).1
  rw [h.block_eq old hold] at hb
  obtain ⟨before, hbf, hr⟩ := Option.map_eq_some_iff.mp hb
  exact ⟨old, before, hbf, hr⟩

/-- The edges of the result are the renumbered edges. -/
theorem leads_iff {old tgt : BlockId} (hold : old ∈ order) :
    Leads res.blocks (order.idxOf old) tgt ↔ ∃ next, Leads body.blocks old next ∧ order.idxOf next = tgt := by
  unfold Leads
  rw [h.block_eq old hold]
  constructor
  · rintro ⟨block, hbl, ht⟩
    obtain ⟨before, hb, rfl⟩ := Option.map_eq_some_iff.mp hbl
    obtain ⟨next, hn, rfl⟩ := Terminator.mem_successors_renumber.mp ht
    exact ⟨next, ⟨before, hb, hn⟩, rfl⟩
  · rintro ⟨next, ⟨before, hb, hn⟩, rfl⟩
    exact ⟨before.renumber order.idxOf, by rw [hb]; rfl, Terminator.mem_successors_renumber.mpr ⟨next, hn, rfl⟩⟩

theorem edgesInRange : EdgesInRange res.blocks := by
  rintro src tgt ⟨block, hb, ht⟩
  obtain ⟨old, hold, rfl⟩ := h.exists_eq_idxOf (List.getElem?_eq_some_iff.mp hb).1
  obtain ⟨next, hn, rfl⟩ := (h.leads_iff hold).mp ⟨block, hb, ht⟩
  exact h.idxOf_lt (h.closed old hold next hn)

end

variable {start goal : BlockId}

variable (h : Renumbered body res order) (hs : start ∈ order)
include h hs

/-- A path between kept blocks is a path in the result. -/
theorem reaches (hp : Reaches body.blocks start goal) : goal ∈ order ∧ Reaches res.blocks (order.idxOf start) (order.idxOf goal) := by
  induction hp with
  | refl => exact ⟨hs, refl⟩
  | tail _ hst ih =>
    obtain ⟨hmem, hr⟩ := ih
    exact ⟨h.closed _ hmem _ hst, hr.tail ((h.leads_iff hmem).mpr ⟨_, hst, rfl⟩)⟩

/-- A path in the result is a path between kept blocks. -/
theorem exists_reaches (hp : Reaches res.blocks (order.idxOf start) goal) :
    ∃ old ∈ order, order.idxOf old = goal ∧ Reaches body.blocks start old := by
  induction hp with
  | refl => exact ⟨start, hs, rfl, refl⟩
  | tail _ hst ih =>
    obtain ⟨old, hold, rfl, hr⟩ := ih
    obtain ⟨next, hn, rfl⟩ := (h.leads_iff hold).mp hst
    exact ⟨next, h.closed old hold next hn, rfl, hr.tail hn⟩

end Renumbered

/-! ## Bodies whose edges are in order -/

/-- The entry, the sink and the targets of all edges exist, and it is the sink that leaves the body. -/
structure Wired (body : Body) : Prop where
  entry_lt : body.entry < body.blocks.length
  sink_lt : body.sink < body.blocks.length
  edges : EdgesInRange body.blocks
  leaves : ∀ id block, body.blocks[id]? = some block → (block.terminator = .sink ↔ id = body.sink)

theorem Wired.not_leads_sink (h : body.Wired) (tgt : BlockId) : ¬Leads body.blocks body.sink tgt := by
  rintro ⟨block, hb, ht⟩
  rw [(h.leaves _ block hb).mpr rfl] at ht
  exact Terminator.not_mem_successors_sink ht

/-- A path from the sink leads nowhere else. -/
theorem Wired.eq_sink_of_reaches (h : body.Wired) (hp : Reaches body.blocks body.sink id) : id = body.sink := by
  rcases cases_head hp with rfl | ⟨next, hn, -⟩
  · rfl
  · exact absurd hn (h.not_leads_sink next)

theorem Renumbered.wired {res : Body} (h : Renumbered body res order) (hw : body.Wired) : res.Wired := by
  have he : res.entry = order.idxOf body.entry := by rw [h.result_eq]
  have hsn : res.sink = order.idxOf body.sink := by rw [h.result_eq]
  refine ⟨he ▸ h.idxOf_lt h.entry_mem, hsn ▸ h.idxOf_lt h.sink_mem, h.edgesInRange, ?_⟩
  intro id block hb
  obtain ⟨old, hold, rfl⟩ := h.exists_eq_idxOf (List.getElem?_eq_some_iff.mp hb).1
  rw [h.block_eq old hold] at hb
  obtain ⟨before, hbf, rfl⟩ := Option.map_eq_some_iff.mp hb
  rw [hsn, idxOf_inj hold, ← hw.leaves old before hbf]
  exact Terminator.renumber_eq_sink_iff

/-- What dropping the unreachable blocks yields: the blocks that can be reached and the sink, the entry first and the sink
last. -/
structure Pruned (body res : Body) (order : List BlockId) : Prop extends Renumbered body res order where
  mem_iff : ∀ id, id ∈ order ↔ Reaches body.blocks body.entry id ∨ id = body.sink
  entry_eq : res.entry = 0
  sink_eq : res.sink + 1 = res.blocks.length

/-- Every block that was kept can be reached, the sink perhaps apart. -/
theorem Pruned.reaches_or_sink {res : Body} (h : Pruned body res order) (id : BlockId) (hid : id < res.blocks.length) :
    id = res.sink ∨ Reaches res.blocks res.entry id := by
  have he : res.entry = order.idxOf body.entry := by rw [h.result_eq]
  have hsn : res.sink = order.idxOf body.sink := by rw [h.result_eq]
  obtain ⟨old, hold, rfl⟩ := h.exists_eq_idxOf hid
  rcases (h.mem_iff old).mp hold with hr | rfl
  · exact Or.inr (he ▸ (h.reaches h.entry_mem hr).2)
  · exact Or.inl hsn.symm

/-- The sink comes last among the blocks that are kept. If it is the entry, it is the only one. -/
theorem idxOf_sink_compactOrder (ha : body.sink = body.entry → ∀ id ∈ body.compactOrder keep, id = body.sink) :
    (body.compactOrder keep).idxOf body.sink + 1 = (body.compactOrder keep).length := by
  unfold compactOrder at ha ⊢
  split
  · rename_i heq
    have hnil : (body.blocks.ids.filter fun id => decide (id ∈ keep ∧ id ≠ body.entry ∧ id ≠ body.sink)) = [] := by
      rw [eq_nil_iff_forall_not_mem]
      intro id hid
      have ho : id ≠ body.sink := by
        have := (mem_filter.mp hid).2
        simp only [decide_eq_true_eq] at this
        exact this.2.2
      exact ho (ha heq id (mem_append_left _ (mem_cons_of_mem _ hid)))
    rw [hnil]
    simp [heq]
  · rename_i hne
    rw [idxOf_append_of_notMem]
    · simp
    · simp [hne]

/-- Dropping the unreachable blocks of a body whose edges are in order does not fault. -/
theorem prune_eq_ok (hw : body.Wired) : ∃ res order, body.prune = .ok res ∧ Pruned body res order := by
  obtain ⟨ids, hr, -, hlt, hmem⟩ := reachable_eq_ok hw.entry_lt hw.edges
  obtain ⟨order, ho⟩ : ∃ order, order = body.compactOrder (ids ++ [body.sink]) := ⟨_, rfl⟩
  have hiff : ∀ id, id ∈ order ↔ Reaches body.blocks body.entry id ∨ id = body.sink := by
    intro id
    rw [ho, mem_compactOrder, mem_append, mem_singleton, ← hmem]
    constructor
    · rintro (rfl | rfl | ⟨h | h, -⟩)
      · exact Or.inl ((hmem _).mpr refl)
      · exact Or.inr rfl
      · exact Or.inl h
      · exact Or.inr h
    · rintro (h | h)
      · exact Or.inr (Or.inr ⟨Or.inl h, hlt id h⟩)
      · exact Or.inr (Or.inl h)
  obtain ⟨res, hc, hren⟩ := compact_eq_ok (ids ++ [body.sink]) hw.entry_lt hw.sink_lt (by
    rw [← ho]
    intro id hid tgt ht
    rcases (hiff id).mp hid with h | rfl
    · exact (hiff tgt).mpr (Or.inl (h.tail ht))
    · exact absurd ht (hw.not_leads_sink tgt))
  rw [← ho] at hren
  have he : res.entry = 0 := by
    rw [hren.result_eq, ho, compactOrder]
    simp
  refine ⟨res, order, ?_, hren, hiff, he, ?_⟩
  · rw [prune, hr]
    exact hc
  · have ha : body.sink = body.entry → ∀ id ∈ order, id = body.sink := by
      intro heq id hid
      rcases (hiff id).mp hid with h | h
      · exact hw.eq_sink_of_reaches (heq ▸ h)
      · exact h
    have hl := idxOf_sink_compactOrder (ho ▸ ha)
    rw [← ho, ← hren.length_blocks] at hl
    rw [← hl, hren.result_eq]

end Body

end Flow

end TagAsm
