import Mathlib.Data.List.Sort
import TagAsm.Proofs.Traversal

/-!
# Compaction

`Body.compact` may be asked to keep any blocks, as long as no edge leads out of them. The blocks that are kept are those asked for, the
entry and the sink, and their new numbers are their places in the new order. All else is as it was, and whoever does it again, with all
blocks kept, gets the same body.
-/

namespace TagAsm.Flow

open List

/-- Blocks that lead to blocks that keep their numbers do not change. -/
theorem Block.renumber_eq_self {num : BlockId → BlockId} {block : Block}
    (h : ∀ tgt ∈ block.terminator.successors, num tgt = tgt) : block.renumber num = block := by
  obtain ⟨stmts, term, exprs⟩ := block
  cases term with
  | branch cond pos neg =>
    rw [renumber, Terminator.renumber, h pos (by simp), h neg (by simp)]
  | jump tgt => rw [renumber, Terminator.renumber, h tgt (by simp)]
  | sink => rfl

namespace Body

/-- `res` is what is left of `body` if the blocks in `keep`, the entry and the sink are kept, in this order. -/
structure Compacted (body : Body) (keep order : List BlockId) (res : Body) : Prop where
  nodup : order.Nodup
  mem_iff : ∀ id, id ∈ order ↔ id ∈ keep ∨ id = body.entry ∨ id = body.sink
  /-- The entry comes first and the sink last, unless they are one block, and the others stay in their order. -/
  order_eq : ∃ others, order = body.entry :: others ++ (if body.sink = body.entry then [] else [body.sink]) ∧ others.Pairwise (· < ·)
  /-- Each block that is kept has a number of its own, and each number is that of a block that is kept. -/
  bijective : Set.BijOn order.idxOf {id | id ∈ order} {number | number < res.blocks.length}
  /-- A block is found under its new number. Its edges lead to the same blocks as before, and it holds what it held. -/
  block_eq : ∀ id ∈ order, res.blocks[order.idxOf id]? = body.blocks[id]?.map (Block.renumber order.idxOf)
  /-- No edge leads to a block that has no new number. -/
  numbered : ∀ id ∈ order, ∀ target, Leads body.blocks id target → (order.idxOf? target).isSome
  result_eq : res = { body with
    blocks := res.blocks, entry := order.idxOf body.entry, sink := order.idxOf body.sink }
  again : ∀ all, (∀ id, id ∈ all ↔ id < res.blocks.length) → res.compact all = .ok res

variable {body : Body}

/-- If the entry is first and the sink last, or both are one block, the order that keeps all blocks is the one they are in. -/
theorem compactOrder_eq_range {all : List BlockId} (hall : ∀ id, id ∈ all ↔ id < body.blocks.length) (he : body.entry = 0)
    (hlt : body.sink < body.blocks.length) (hs : body.sink = 0 ∨ body.sink + 1 = body.blocks.length) :
    body.compactOrder all = range body.blocks.length := by
  have hm : (body.blocks.ids.filter fun id => id ∈ all ∧ id ≠ body.entry ∧ id ≠ body.sink).Pairwise (· < ·) :=
    Pairwise.filter _ pairwise_lt_range
  refine Pairwise.eq_of_mem_iff (r := (· < ·)) ?_ pairwise_lt_range fun id => ?_
  · refine pairwise_append.mpr ⟨pairwise_cons.mpr ⟨fun id hid => ?_, hm⟩, by split <;> simp, fun id hid last hl => ?_⟩
    · have ho := (mem_filter.mp hid).2
      simp only [decide_eq_true_eq] at ho
      exact he ▸ Nat.pos_of_ne_zero (he ▸ ho.2.1)
    · split at hl
      · exact absurd hl not_mem_nil
      · rw [mem_singleton] at hl
        simp only [mem_cons, mem_filter, Table.ids, mem_range, decide_eq_true_eq] at hid
        grind
  · rw [mem_compactOrder, mem_range, hall]
    grind

/-- If all blocks are kept where they are, nothing changes. -/
theorem compact_eq_self {all : List BlockId} (hall : ∀ id, id ∈ all ↔ id < body.blocks.length) (he : body.entry = 0)
    (hlt : body.sink < body.blocks.length) (hs : body.sink = 0 ∨ body.sink + 1 = body.blocks.length)
    (hed : EdgesInRange body.blocks) : body.compact all = .ok body := by
  have ho := compactOrder_eq_range hall he hlt hs
  obtain ⟨res, hc, h⟩ := compact_eq_ok all (he ▸ Nat.zero_lt_of_lt hlt) hlt fun id _ tgt hl => by
    rw [ho, mem_range]
    exact hed id tgt hl
  rw [ho] at h
  have hp : ∀ id < body.blocks.length, (range body.blocks.length).idxOf id = id := by
    intro id hid
    have hp := nodup_range.idxOf_getElem id (by rwa [length_range])
    rwa [getElem_range] at hp
  have hbs : res.blocks = body.blocks := by
    refine ext_getElem (by simpa using h.length_blocks) fun id hnew hold => ?_
    have hb := h.block_eq id (mem_range.mpr hold)
    rw [hp id hold, getElem?_eq_getElem hnew, getElem?_eq_getElem hold, Option.map_some] at hb
    rw [Option.some.inj hb]
    exact Block.renumber_eq_self fun tgt ht => hp tgt (hed id tgt ⟨_, getElem?_eq_getElem hold, ht⟩)
  have hr := h.result_eq
  rw [hbs, hp _ hlt, hp _ (he ▸ Nat.zero_lt_of_lt hlt)] at hr
  rw [hc, hr]

/-- Keeping blocks that no edge leads out of is a renumbering of the blocks that are kept. -/
theorem compact_renumbers {keep : List BlockId} (hentry : body.entry < body.blocks.length) (hsink : body.sink < body.blocks.length)
    (hkeep : ∀ id ∈ keep, id < body.blocks.length)
    (hclosed : ∀ id target, id ∈ keep ∨ id = body.entry ∨ id = body.sink → Leads body.blocks id target →
      target ∈ keep ∨ target = body.entry ∨ target = body.sink) :
    ∃ order result, body.compact keep = .ok result ∧ Compacted body keep order result := by
  have hmem : ∀ id, id ∈ body.compactOrder keep ↔ id ∈ keep ∨ id = body.entry ∨ id = body.sink := by
    intro id
    rw [mem_compactOrder]
    grind
  obtain ⟨result, hcompact, h⟩ := compact_eq_ok keep hentry hsink fun id hid target hleads =>
    (hmem target).mpr (hclosed id target ((hmem id).mp hid) hleads)
  have hfirst : result.entry = 0 := by
    rw [h.result_eq, compactOrder]
    simp
  have hlast : result.sink = 0 ∨ result.sink + 1 = result.blocks.length := by
    have hplace : result.sink = (body.compactOrder keep).idxOf body.sink := by rw [h.result_eq]
    rw [hplace, h.length_blocks, compactOrder]
    split
    · rename_i hsame
      simp [hsame]
    · rename_i hother
      rw [idxOf_append_of_notMem (by simp [hother])]
      simp
  refine ⟨body.compactOrder keep, result, hcompact, h.nodup, hmem, ⟨_, rfl, Pairwise.filter _ pairwise_lt_range⟩, ⟨?_, ?_, ?_⟩,
    h.block_eq, fun id hid target hleads => isSome_idxOf?.mpr (h.closed id hid target hleads), h.result_eq, fun all hall =>
    compact_eq_self hall hfirst ?_ hlast h.edgesInRange⟩
  · exact fun id hid => h.idxOf_lt hid
  · exact fun id hid other _ heq => (idxOf_inj hid).mp heq
  · exact fun number hnumber => h.exists_eq_idxOf hnumber
  · rw [h.result_eq]
    exact h.idxOf_lt h.sink_mem

/-- Without the block that cannot be reached, the sink goes from the front to the end. -/
theorem compact_renumbers_maze : ∃ order result, maze.compact [3, 2] = .ok result ∧ Compacted maze [3, 2] order result ∧
    result.blocks = [⟨[], .branch 0 2 1, [10]⟩, ⟨[], .branch 0 3 2, [11]⟩, ⟨[], .jump 0, []⟩, ⟨[], .sink, []⟩] := by
  obtain ⟨order, result, hcompact, hcompacted⟩ := @compact_renumbers maze [3, 2] (by decide) (by decide) (by decide) (by
      rintro id target hid ⟨block, hblock, ht⟩
      simp only [mem_cons, not_mem_nil, or_false, maze] at hid
      rcases hid with (rfl | rfl) | rfl | rfl <;> cases hblock <;> revert target <;> decide)
  cases hcompact
  exact ⟨order, _, rfl, hcompacted, rfl⟩

end Body

end TagAsm.Flow
