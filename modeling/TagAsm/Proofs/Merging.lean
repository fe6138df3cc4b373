import TagAsm.Proofs.Defects
import TagAsm.Proofs.Folding

/-!
# Merging keeps what a body does

A round folds blocks one after the other while the list of edges it goes by changes with them; then the blocks that nobody
leads to any more are dropped. The invariant of a round (`MergeRound.Sane`) says that the list has every edge that a walk can
take, and that no such edge leads to a folded block. So every fold of a round is one of those that keep the meaning
(`Body.Foldable`), and a merged body is reached by such folds and by renumberings (`Body.MergeStep`). What merging preserves is
proved of the single steps.
-/

namespace TagAsm.Flow

open List Relation.ReflTransGen

namespace Body

/-- A step of merging. -/
inductive MergeStep : Body → Body → Prop where
  | fold {body : Body} {Live : BlockId → Prop} {id tgt : BlockId} {block : Block} {sources : List BlockId}
    (h : Foldable body Live id tgt block sources) : MergeStep body (body.fold id tgt block sources)
  | prune {body res : Body} {order : List BlockId} (h : Pruned body res order) : MergeStep body res

/-- Steps of merging, one after the other. -/
abbrev MergeSteps : Body → Body → Prop := Relation.ReflTransGen MergeStep

/-! ## What one step preserves -/

variable {body res : Body} {order : List BlockId}

/-- Renumbering keeps the meaning of a body. -/
theorem Renumbered.sameMeaning (h : Renumbered body res order) : SameMeaning res body := by
  have hp : ∀ seen : Event → Bool, (∀ event, seen event = true → event.isContent = true) → ∀ run : Run Event,
      (run.only Event.isContent).only seen = run.only seen := by
    intro seen hsn run
    funext n
    have hb : ∀ event, (seen event && event.isContent) = seen event := by
      intro event
      cases hs : seen event with
      | false => rfl
      | true => simp [hsn event hs]
    simp [Run.only, filter_filter, hb]
  have ha : ∀ event : Event, event.isAction = true → event.isContent = true := by
    intro event
    cases event <;> simp [Event.isAction, Event.isContent]
  have ho : ∀ event : Event, event.isOrigin = true → event.isContent = true := by
    intro event
    cases event <;> simp [Event.isOrigin, Event.isContent]
  intro oracle
  rw [← hp _ ha, ← hp _ ho, h.only_content_run, hp _ ha, hp _ ho]
  exact ⟨Run.Agree.refl _, Run.Agree.refl _⟩

/-- A step of merging keeps the meaning of a body. -/
theorem MergeStep.sameMeaning (h : MergeStep body res) : SameMeaning res body := by
  cases h with
  | fold h => exact h.sameMeaning_fold
  | prune h => exact h.sameMeaning

variable {id tgt : BlockId} {block : Block} {sources : List BlockId}

/-- A block after a fold is the block before it with the same or redirected edges, and holds statements of that block or of
the folded one. -/
theorem exists_of_getElem?_fold {x : BlockId} {b : Block} (hb : (body.fold id tgt block sources).blocks[x]? = some b) :
    ∃ before, body.blocks[x]? = some before ∧
      (b.terminator = before.terminator ∨ b.terminator = before.terminator.renumber (redirect id tgt)) ∧
      ∀ stmt ∈ b.statements, stmt ∈ before.statements ∨ stmt ∈ block.statements := by
  simp only [fold, getElem?_mapIdx, getElem?_modify, Option.map_eq_map, Option.map_map, Option.map_eq_some_iff] at hb
  obtain ⟨before, hbf, rfl⟩ := hb
  refine ⟨before, hbf, ?_, ?_⟩
  · split
    · right
      split <;> split <;> rfl
    · left
      split <;> split <;> rfl
  · intro stmt hmem
    split at hmem <;> split at hmem <;> split at hmem <;> simp_all
    all_goals exact hmem.symm

/-- A fold makes no blocks and drops none. -/
theorem length_blocks_fold (body : Body) (id tgt : BlockId) (block : Block) (sources : List BlockId) :
    (body.fold id tgt block sources).blocks.length = body.blocks.length := by
  simp [fold]

theorem Foldable.wired_fold {Live : BlockId → Prop} (h : Foldable body Live id tgt block sources) (hw : body.Wired) :
    (body.fold id tgt block sources).Wired := by
  have htr : tgt < body.blocks.length := h.inRange tgt h.live_target
  have hr : ∀ x, x < body.blocks.length → redirect id tgt x < body.blocks.length := by
    intro x hx
    rw [redirect]
    split
    · exact htr
    · exact hx
  refine ⟨?_, ?_, ?_, ?_⟩
  · rw [length_blocks_fold]
    exact hr body.entry hw.entry_lt
  · rw [length_blocks_fold]
    exact hw.sink_lt
  · rintro x y ⟨b, hb, hy⟩
    rw [length_blocks_fold]
    obtain ⟨before, hbf, ht, -⟩ := exists_of_getElem?_fold hb
    rcases ht with hs | hm
    · exact hw.edges x y ⟨before, hbf, hs ▸ hy⟩
    · rw [hm] at hy
      obtain ⟨old, hold, rfl⟩ := Terminator.mem_successors_renumber.mp hy
      exact hr old (hw.edges x old ⟨before, hbf, hold⟩)
  · intro x b hb
    obtain ⟨before, hbf, ht, -⟩ := exists_of_getElem?_fold hb
    refine Iff.trans ?_ (hw.leaves x before hbf)
    rcases ht with hs | hm
    · rw [hs]
    · rw [hm]
      exact Terminator.renumber_eq_sink_iff

/-- A step of merging keeps the edges in order. -/
theorem MergeStep.wired (h : MergeStep body res) (hw : body.Wired) : res.Wired := by
  cases h with
  | fold h => exact h.wired_fold hw
  | prune h => exact h.wired hw

/-- A step of merging changes the blocks, and which of them are the entry and the sink. -/
theorem MergeStep.result_eq (h : MergeStep body res) :
    res = { body with blocks := res.blocks, entry := res.entry, sink := res.sink } := by
  cases h with
  | fold h => rfl
  | prune h =>
    have hr := h.result_eq
    rw [hr]

/-- These hold of all statements of a body and of all values that it tests. -/
structure Upholds (OfStatement : Statement → Prop) (OfTest : ValueId → Prop) (body : Body) : Prop where
  statements : ∀ (id : BlockId) (block : Block), body.blocks[id]? = some block → ∀ stmt ∈ block.statements, OfStatement stmt
  tests : ∀ (id : BlockId) (block : Block), body.blocks[id]? = some block → ∀ condition ∈ block.terminator.condition?, OfTest condition

section

variable {OfStatement : Statement → Prop} {OfTest : ValueId → Prop} {body res : Body}

theorem Renumbered.upholds {order : List BlockId} (h : Renumbered body res order) (hbd : body.Upholds OfStatement OfTest) :
    res.Upholds OfStatement OfTest := by
  refine ⟨fun id block hid stmt hs => ?_, fun id block hid cond hc => ?_⟩
  · obtain ⟨old, before, hb, rfl⟩ := h.exists_before hid
    exact hbd.statements old before hb stmt hs
  · obtain ⟨old, before, hb, rfl⟩ := h.exists_before hid
    rw [Block.renumber, Terminator.condition?_renumber] at hc
    exact hbd.tests old before hb cond hc

theorem Foldable.upholds_fold {Live : BlockId → Prop} {id tgt : BlockId} {block : Block} {sources : List BlockId}
    (h : Foldable body Live id tgt block sources) (hbd : body.Upholds OfStatement OfTest) :
    (body.fold id tgt block sources).Upholds OfStatement OfTest := by
  refine ⟨fun x b hb stmt hs => ?_, fun x b hb cond hc => ?_⟩
  · obtain ⟨before, hbf, -, hst⟩ := exists_of_getElem?_fold hb
    rcases hst stmt hs with hs | hs
    · exact hbd.statements x before hbf stmt hs
    · exact hbd.statements id block h.found stmt hs
  · obtain ⟨before, hbf, ht, -⟩ := exists_of_getElem?_fold hb
    refine hbd.tests x before hbf cond ?_
    rcases ht with hsm | hm
    · rwa [hsm] at hc
    · rwa [hm, Terminator.condition?_renumber] at hc

/-- A step of merging moves statements about and adds none. -/
theorem MergeStep.upholds (h : MergeStep body res) (hb : body.Upholds OfStatement OfTest) : res.Upholds OfStatement OfTest := by
  cases h with
  | fold h => exact h.upholds_fold hb
  | prune h => exact h.upholds hb

end

/-- Where the edges are in order and all values exist, every block is fine on its own. -/
theorem Wired.fine (hw : body.Wired)
    (hvs : body.Upholds (fun stmt => ∀ val ∈ stmt.values, val < body.values.length) (· < body.values.length))
    (hb : body.blocks[id]? = some block) : body.Fine id block := by
  refine ⟨fun tgt ht => hw.edges id tgt ⟨block, hb, ht⟩, fun val hv => ?_, hw.leaves id block hb⟩
  rcases mem_append.mp hv with hv | hv
  · obtain ⟨stmt, hs, hv⟩ := mem_flatMap.mp hv
    exact hvs.statements id block hb stmt hs val hv
  · exact hvs.tests id block hb val (Option.mem_toList.mp hv)

/-- Without its unreachable blocks, such a body passes the check. -/
theorem Pruned.passes (h : Pruned body res order) (hw : res.Wired)
    (hv : res.Upholds (fun stmt => ∀ val ∈ stmt.values, val < res.values.length) (· < res.values.length)) : res.defect? = .ok none :=
  (defect?_eq_ok_none_iff hw.entry_lt).mpr ⟨fun _ _ hb => hw.fine hv hb, h.reaches_or_sink⟩

/-! ## What steps in a row preserve -/

theorem MergeSteps.sameMeaning (h : MergeSteps body res) : SameMeaning res body := by
  induction h with
  | refl => exact SameMeaning.refl _
  | tail _ hs ih => exact hs.sameMeaning.trans ih

theorem MergeSteps.wired (h : MergeSteps body res) (hw : body.Wired) : res.Wired := by
  induction h with
  | refl => exact hw
  | tail _ hs ih => exact hs.wired ih

theorem MergeSteps.result_eq (h : MergeSteps body res) :
    res = { body with blocks := res.blocks, entry := res.entry, sink := res.sink } := by
  induction h with
  | refl => rfl
  | @tail mid res _ hs ih =>
    have hr := hs.result_eq
    rw [ih] at hr
    exact hr

theorem MergeSteps.upholds {OfStatement : Statement → Prop} {OfTest : ValueId → Prop} (h : MergeSteps body res)
    (hb : body.Upholds OfStatement OfTest) : res.Upholds OfStatement OfTest := by
  induction h with
  | refl => exact hb
  | tail _ hs ih => exact hs.upholds ih

end Body

/-! ## Rounds -/

namespace MergeRound

/-- The invariant of a round over the blocks `ids`: a walk stays among those of them that were not folded, and all edges that
it can take are in the list. -/
structure Sane (round : MergeRound) (ids : List BlockId) : Prop where
  inRange : ∀ x ∈ ids, x < round.body.blocks.length
  entry_mem : round.body.entry ∈ ids ∧ round.body.entry ∉ round.folded
  closed : ∀ x ∈ ids, x ∉ round.folded → ∀ y, Leads round.body.blocks x y → (y ∈ ids ∧ y ∉ round.folded) ∧ (x, y) ∈ round.edges

variable {round : MergeRound}

/-- The blocks of the list that lead to a block. -/
theorem mem_sources {x y : BlockId} : x ∈ round.sources y ↔ (x, y) ∈ round.edges := by
  simp only [sources, mem_map, mem_filter, decide_eq_true_eq]
  constructor
  · rintro ⟨⟨a, b⟩, ⟨hmem, rfl⟩, rfl⟩
    exact hmem
  · intro h
    exact ⟨(x, y), ⟨h, rfl⟩, rfl⟩

/-- A block that is the only way to another one is the only one on the list that leads there. -/
theorem eq_of_isOnlyWay {id tgt : BlockId} (h : round.isOnlyWay id tgt = true) :
    tgt ≠ round.body.entry ∧ ∀ x, (x, tgt) ∈ round.edges → x = id := by
  simp only [isOnlyWay, Bool.and_eq_true, decide_eq_true_eq, all_eq_true] at h
  exact ⟨h.1.1, fun x hx => h.2 x (mem_sources.mpr hx)⟩

/-- What it takes to be folded. -/
theorem target?_eq_some {id tgt : BlockId} {block : Block} (h : round.target? id = some (tgt, block)) :
    id ∉ round.folded ∧ round.body.blocks[id]? = some block ∧ block.terminator = .jump tgt ∧ tgt ≠ id ∧
      (block.isEmpty = true ∨ round.isOnlyWay id tgt = true) := by
  unfold target? at h
  split at h
  · cases h
  · rename_i hf
    split at h
    · rename_i found hfn
      split at h
      · rename_i goal hj
        split at h
        · cases h
        · rename_i hg
          rw [not_or] at hg
          split at h
          · rename_i hwhy
            obtain ⟨rfl, rfl⟩ : goal = tgt ∧ found = block := by simpa using h
            exact ⟨hf, hfn, hj, hg.1, by simpa using hwhy⟩
          · cases h
      · cases h
    · cases h

namespace Sane

variable {round : MergeRound} {ids : List BlockId} {id tgt : BlockId} {block : Block}

theorem foldable (h : round.Sane ids) (hid : id ∈ ids) (ht : round.target? id = some (tgt, block)) :
    round.body.Foldable (fun x => x ∈ ids ∧ x ∉ round.folded) id tgt block (round.sources id) := by
  obtain ⟨hf, hfn, hj, hne, hwhy⟩ := target?_eq_some ht
  refine ⟨hfn, hj, hne, h.entry_mem, ⟨hid, hf⟩, fun x hx y hy => (h.closed x hx.1 hx.2 y hy).1,
    fun x hx => h.inRange x hx.1, fun x hx hl => mem_sources.mpr (h.closed x hx.1 hx.2 id hl).2, ?_⟩
  rcases hwhy with he | ho
  · exact Or.inl he
  · obtain ⟨hen, hall⟩ := eq_of_isOnlyWay ho
    exact Or.inr ⟨hen, fun x hx hl => hall x (h.closed x hx.1 hx.2 tgt hl).2⟩

/-- Looking at one block of the round keeps the invariant. -/
theorem step (h : round.Sane ids) (hid : id ∈ ids) : (round.step id).Sane ids := by
  unfold MergeRound.step
  split
  · rename_i tgt block ht
    have hf := h.foldable hid ht
    -- a redirected edge leads to a block that is left
    have hl : ∀ y, y ∈ ids ∧ y ∉ round.folded → redirect id tgt y ∈ ids ∧ redirect id tgt y ∉ round.folded ++ [id] := by
      intro y hy
      simp only [mem_append, mem_singleton, not_or, redirect]
      split
      · exact ⟨hf.live_target.1, hf.live_target.2, hf.target_ne⟩
      · rename_i hne
        exact ⟨hy.1, hy.2, hne⟩
    refine ⟨fun x hx => ?_, hl _ h.entry_mem, ?_⟩
    · rw [Body.length_blocks_fold]
      exact h.inRange x hx
    · rintro x hx hfl y ⟨b, hb, hy⟩
      rw [mem_append, mem_singleton, not_or] at hfl
      obtain ⟨before, hbf⟩ := hf.exists_block ⟨hx, hfl.1⟩
      rw [hf.getElem?_fold ⟨hx, hfl.1⟩ hfl.2 hbf] at hb
      obtain ⟨old, hold, rfl⟩ : ∃ old ∈ before.terminator.successors, redirect id tgt old = y := by
        cases hb
        have hs : (if x = tgt then before.after block else before).terminator = before.terminator := by
          split <;> rfl
        rw [← hs]
        exact Terminator.mem_successors_renumber.mp hy
      obtain ⟨hlf, he⟩ := h.closed x hx hfl.1 old ⟨before, hbf, hold⟩
      refine ⟨hl old hlf, ?_⟩
      simp only [foldEdges, mem_map, mem_filter, decide_eq_true_eq]
      exact ⟨(x, old), ⟨he, hfl.2⟩, rfl⟩
  · exact h

end Sane

/-- A round consists of steps of merging. -/
theorem foldl_step (ids rest : List BlockId) (round : MergeRound) (h : round.Sane ids) (hsub : ∀ id ∈ rest, id ∈ ids) :
    Body.MergeSteps round.body (rest.foldl step round).body := by
  induction rest generalizing round with
  | nil => exact Relation.ReflTransGen.refl
  | cons id rest ih =>
    have hid := hsub id (by simp)
    refine Relation.ReflTransGen.trans ?_ (ih (round.step id) (h.step hid) fun x hx => hsub x (by simp [hx]))
    unfold step
    split
    · rename_i tgt block ht
      exact .single (Body.MergeStep.fold (h.foldable hid ht))
    · exact Relation.ReflTransGen.refl

/-- A round whose list of folded blocks stays empty has done nothing, since it found nothing to fold. -/
theorem eq_of_folded_eq_nil (rest : List BlockId) (round : MergeRound) (h : (rest.foldl step round).folded = []) :
    rest.foldl step round = round ∧ ∀ id ∈ rest, round.target? id = none := by
  induction rest generalizing round with
  | nil => exact ⟨rfl, forall_mem_nil _⟩
  | cons id rest ih =>
    rw [foldl_cons] at h ⊢
    obtain ⟨hs, hn⟩ := ih (round.step id) h
    cases ht : round.target? id with
    | none =>
      have hst : round.step id = round := by simp [step, ht]
      rw [hst] at hs hn ⊢
      exact ⟨hs, forall_mem_cons.mpr ⟨ht, hn⟩⟩
    | some found =>
      rw [hs] at h
      simp [step, ht] at h

end MergeRound

namespace Body

variable {body : Body}

/-- The edges that leave the given blocks. -/
theorem mem_edgesFrom {ids : List BlockId} {src tgt : BlockId} :
    (src, tgt) ∈ body.edgesFrom ids ↔ src ∈ ids ∧ Leads body.blocks src tgt := by
  unfold edgesFrom Leads
  rw [mem_flatMap]
  constructor
  · rintro ⟨id, hid, hmem⟩
    split at hmem
    · rename_i block hb
      obtain ⟨next, hn, heq⟩ := mem_map.mp hmem
      cases heq
      exact ⟨hid, block, hb, hn⟩
    · exact absurd hmem not_mem_nil
  · rintro ⟨hid, block, hb, ht⟩
    refine ⟨src, hid, ?_⟩
    rw [hb]
    exact mem_map_of_mem ht

/-- A round on a body whose edges are in order does not fault. It looks at the blocks that can be reached. -/
theorem mergeRound_eq_foldl (hw : body.Wired) : ∃ ids, body.mergeRound = .ok (ids.foldl MergeRound.step ⟨body, body.edgesFrom ids, []⟩) ∧
      (∀ id, id ∈ ids ↔ Reaches body.blocks body.entry id) ∧ (MergeRound.mk body (body.edgesFrom ids) []).Sane ids := by
  obtain ⟨ids, hr, -, hlt, hmem⟩ := reachable_eq_ok hw.entry_lt hw.edges
  refine ⟨ids, ?_, hmem, hlt, ⟨(hmem _).mpr refl, not_mem_nil⟩, fun x hx _ y hl => ?_⟩
  · rw [mergeRound, hr]
    rfl
  · exact ⟨⟨(hmem y).mpr (((hmem x).mp hx).tail hl), not_mem_nil⟩, mem_edgesFrom.mpr ⟨hx, hl⟩⟩

/-- A round consists of steps of merging, of none if it folds nothing. -/
theorem mergeRound_eq_ok (hw : body.Wired) :
    ∃ round, body.mergeRound = .ok round ∧ MergeSteps body round.body ∧ (round.folded = [] → round.body = body) := by
  obtain ⟨ids, hr, -, hs⟩ := mergeRound_eq_foldl hw
  refine ⟨_, hr, MergeRound.foldl_step ids ids _ hs fun _ h => h, fun he => ?_⟩
  rw [(MergeRound.eq_of_folded_eq_nil ids _ he).1]

/-- Merging does not fault on a body whose edges are in order. What it yields is the body itself, or was renumbered last. -/
theorem mergeRounds_eq_ok (rounds : Nat) (hw : body.Wired) : ∃ removed merged, mergeRounds rounds body = .ok (removed, merged) ∧
      (merged = body ∨ ∃ before order, MergeSteps body before ∧ before.Wired ∧ Pruned before merged order) := by
  induction rounds generalizing body with
  | zero => exact ⟨0, body, rfl, Or.inl rfl⟩
  | succ rounds ih =>
    obtain ⟨round, hrn, hs, hn⟩ := mergeRound_eq_ok hw
    rw [mergeRounds, hrn]
    simp only [bind, Except.bind]
    by_cases he : round.folded = []
    · rw [if_pos (by simp [he])]
      exact ⟨0, round.body, rfl, Or.inl (hn he)⟩
    · rw [if_neg (by simpa using he)]
      obtain ⟨pruned, order, hpr, hp⟩ := prune_eq_ok (hs.wired hw)
      obtain ⟨removed, merged, hr, hc⟩ := ih (hp.wired (hs.wired hw))
      simp only [hpr, hr, pure, Except.pure]
      refine ⟨_, merged, rfl, Or.inr ?_⟩
      rcases hc with rfl | ⟨before, order', hm, hwr, hl⟩
      · exact ⟨round.body, order, hs, hs.wired hw, hp⟩
      · exact ⟨before, order', (hs.tail (MergeStep.prune hp)).trans hm, hwr, hl⟩

/-- A merged body was reached by steps of merging. -/
theorem merge_eq_ok (hw : body.Wired) : ∃ removed merged, body.merge = .ok (removed, merged) ∧ MergeSteps body merged := by
  obtain ⟨removed, merged, hm, hc⟩ := mergeRounds_eq_ok (body.blocks.length + 1) hw
  refine ⟨removed, merged, hm, ?_⟩
  rcases hc with rfl | ⟨before, order, hs, -, hl⟩
  · exact refl
  · exact hs.tail (MergeStep.prune hl)

/-- Merging the blocks of a body that passes the check succeeds and keeps what the body does: whatever the tests find, the same
statements are executed between the same tests, the same source expressions are evaluated between the same tests, and the walk
leaves through the sink in the same cases. -/
theorem sameMeaning_merge (body : Body) (hentry : body.entry < body.blocks.length) (hsink : body.sink < body.blocks.length)
    (hcheck : body.defect? = .ok none) :
    ∃ removed merged, body.merge = .ok (removed, merged) ∧ SameMeaning merged body := by
  obtain ⟨removed, merged, hmerge, hsteps⟩ := merge_eq_ok (wired_of_defect?_eq_none hentry hsink hcheck)
  exact ⟨removed, merged, hmerge, hsteps.sameMeaning⟩

/-- A loop with two blocks in a row, entered through an empty block. -/
def chainedLoop : Body where
  returnValue := 0
  parameters := []
  locals := []
  temporaries := []
  values := [⟨0, none, 0⟩]
  blocks := [⟨[], .jump 1, []⟩, ⟨[], .branch 0 2 4, [10]⟩, ⟨[⟨.assign 0 (.subroutine 5), .unknown⟩], .jump 3, [11]⟩,
    ⟨[⟨.assign 0 (.subroutine 6), .unknown⟩], .jump 1, [12]⟩, ⟨[], .sink, []⟩]
  entry := 0
  sink := 4

/-- Merging takes two blocks from the loop and keeps what it does. -/
theorem sameMeaning_merge_chainedLoop : chainedLoop.defect? = .ok none ∧
    ∃ removed merged, chainedLoop.merge = .ok (removed, merged) ∧ SameMeaning merged chainedLoop :=
  ⟨rfl, sameMeaning_merge chainedLoop (by decide) (by decide) rfl⟩

end Body

end TagAsm.Flow
