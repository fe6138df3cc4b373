import TagAsm.Flow.Merge
import TagAsm.Proofs.Walk

/-!
# Folding one block keeps what a body does

A block that ends in a jump is folded into the block behind it. The walk through the new body takes one step where the old one
takes two: through the folded block and through the one behind it. Both show the same statements, expressions and tests,
because either the folded block is empty or nobody else goes to the block behind it. That a statement of the one and an
expression of the other can change places is why the two kinds are looked at one at a time.
-/

namespace TagAsm.Flow

/-! ## What is seen of a block -/

/-- The statements that a block executes, then the value that it tests. -/
def Block.actions (block : Block) : List Event :=
  block.statements.map .statement ++ block.terminator.condition?.toList.map .test

/-- The source expressions that a block evaluates, then the value that it tests. -/
def Block.origins (block : Block) : List Event :=
  block.expressions.map .expression ++ block.terminator.condition?.toList.map .test

theorem Block.filter_isAction_events (id : BlockId) (block : Block) : (block.events id).filter Event.isAction = block.actions := by
  simp [events, actions, Event.isAction, List.filter_map, Function.comp_def]

theorem Block.filter_isOrigin_events (id : BlockId) (block : Block) : (block.events id).filter Event.isOrigin = block.origins := by
  simp [events, origins, Event.isOrigin, List.filter_map, Function.comp_def]

/-! ## The folded body -/

/-- Where an edge leads once the edges to `old` lead to `new`. -/
def redirect (old new id : BlockId) : BlockId := if id = old then new else id

variable (old new : BlockId)

theorem redirect_self : redirect old new old = new := if_pos rfl

theorem redirect_of_ne {old id : BlockId} (h : id ≠ old) : redirect old new id = id := if_neg h

theorem Terminator.retarget_eq_renumber (term : Terminator) : term.retarget old new = term.renumber (redirect old new) := by
  cases term <;> rfl

/-- Renumbering changes nothing if it leaves the successors as they are. -/
theorem Terminator.renumber_eq_self {num : BlockId → BlockId} {term : Terminator}
    (h : ∀ tgt ∈ term.successors, num tgt = tgt) : term.renumber num = term := by
  cases term with
  | branch cond pos neg => rw [renumber, h pos (by simp), h neg (by simp)]
  | jump tgt => rw [renumber, h tgt (by simp)]
  | sink => rfl

/-- The block with the contents of another one in front. -/
def Block.after (block first : Block) : Block :=
  { block with
    statements := first.statements ++ block.statements
    expressions := first.expressions ++ block.expressions }

/-- A block without contents adds nothing to what comes after it. -/
theorem Block.after_of_isEmpty {block first : Block} (h : first.isEmpty = true) : block.after first = block := by
  simp only [isEmpty, Bool.and_eq_true, List.isEmpty_iff] at h
  simp [after, h.1, h.2]

namespace Body

/-- What makes it right to fold block `id` into `tgt`. `Live` are the blocks that a walk can come to. -/
structure Foldable (body : Body) (Live : BlockId → Prop) (id tgt : BlockId) (block : Block) (sources : List BlockId) :
    Prop where
  found : body.blocks[id]? = some block
  jumps : block.terminator = .jump tgt
  target_ne : tgt ≠ id
  live_entry : Live body.entry
  live_id : Live id
  closed : ∀ x, Live x → ∀ y, Leads body.blocks x y → Live y
  inRange : ∀ x, Live x → x < body.blocks.length
  listed : ∀ x, Live x → Leads body.blocks x id → x ∈ sources
  alone : block.isEmpty = true ∨ tgt ≠ body.entry ∧ ∀ x, Live x → Leads body.blocks x tgt → x = id

namespace Foldable

variable {body : Body} {Live : BlockId → Prop} {id tgt : BlockId} {block : Block} {sources : List BlockId}

section

variable (h : Foldable body Live id tgt block sources)
include h

theorem leads_target : Leads body.blocks id tgt := ⟨block, h.found, by simp [h.jumps]⟩

theorem live_target : Live tgt := h.closed id h.live_id tgt h.leads_target

theorem exists_block {x : BlockId} (hx : Live x) : ∃ b, body.blocks[x]? = some b := ⟨_, List.getElem?_eq_getElem (h.inRange x hx)⟩

/-- A block that stays keeps its contents, behind those of the folded block if it is the target, and its edges to the folded
block lead to the target. -/
theorem getElem?_fold {x : BlockId} {b : Block} (hx : Live x) (hne : x ≠ id) (hb : body.blocks[x]? = some b) :
    (body.fold id tgt block sources).blocks[x]? = some ((if x = tgt then b.after block else b).renumber (redirect id tgt)) := by
  have hr : x ∉ sources → b.terminator.renumber (redirect id tgt) = b.terminator := by
    intro hnot
    apply Terminator.renumber_eq_self
    intro y hy
    have hyid : y ≠ id := by
      rintro rfl
      exact hnot (h.listed x hx ⟨b, hb, hy⟩)
    rw [redirect, if_neg hyid]
  simp only [fold, List.getElem?_mapIdx, List.getElem?_modify, hb, Option.map_eq_map, Option.map_some]
  rw [if_neg (Ne.symm hne)]
  by_cases ht : x = tgt
  · subst ht
    by_cases hs : x ∈ sources
    · simp [hs, Block.after, Block.renumber, Terminator.retarget_eq_renumber]
    · simp [hs, Block.after, Block.renumber, hr hs]
  · have ht' : tgt ≠ x := fun heq => ht heq.symm
    by_cases hs : x ∈ sources
    · simp [hs, ht, ht', Block.renumber, Terminator.retarget_eq_renumber]
    · simp [hs, ht, ht', Block.renumber, hr hs]

end

/-! ## The two walks -/

/-- The walk through the folded body (`new`) and the one through the body (`old`) have shown the same, and are at the same
place: where the old one is in front of the folded block, the new one is in front of the target. The old one is in front of
the target only if that makes no difference. -/
structure Matches (body : Body) (Live : BlockId → Prop) (id tgt : BlockId) (block : Block) (new old : Walk) : Prop where
  tests : new.tests = old.tests
  actions : new.events.filter Event.isAction = old.events.filter Event.isAction
  origins : new.events.filter Event.isOrigin = old.events.filter Event.isOrigin
  places : (∃ x, old.place = .before x ∧ new.place = .before (redirect id tgt x) ∧ Live x ∧
      (x = tgt → block.isEmpty = true)) ∨ ∃ x, old.place = .left x ∧ new.place = .left x

variable {new old : Walk}

section

variable (h : Foldable body Live id tgt block sources) (oracle : Nat → Bool)
include h

/-- Both walks pass a block that stays, the new one with the contents of `first` in front. -/
theorem matches_pass {x : BlockId} {b first : Block} (hx : Live x) (hb : body.blocks[x]? = some b) (hcl : x = id → False)
    (ht : new.tests = old.tests)
    (ha : new.events.filter Event.isAction ++ first.statements.map .statement = old.events.filter Event.isAction)
    (hor : new.events.filter Event.isOrigin ++ first.expressions.map .expression = old.events.filter Event.isOrigin) :
    Matches body Live id tgt block (new.pass oracle x ((b.after first).renumber (redirect id tgt))) (old.pass oracle x b) := by
  have hc : ((b.after first).renumber (redirect id tgt)).terminator.condition? = b.terminator.condition? :=
    Terminator.condition?_renumber _ _
  refine ⟨?_, ?_, ?_, ?_⟩
  · simp only [Walk.pass, ht, hc]
  · simp only [Walk.pass, List.filter_append, Block.filter_isAction_events, ← ha, Block.actions, hc]
    simp [Block.after, Block.renumber]
  · simp only [Walk.pass, List.filter_append, Block.filter_isOrigin_events, ← hor, Block.origins, hc]
    simp [Block.after, Block.renumber]
  · have hf : ((b.after first).renumber (redirect id tgt)).terminator.follow (oracle old.tests) =
        (b.terminator.follow (oracle old.tests)).map (redirect id tgt) := Terminator.follow_renumber _ _ _
    simp only [Walk.pass, ht, hf]
    cases hn : b.terminator.follow (oracle old.tests) with
    | none => exact Or.inr ⟨x, rfl, rfl⟩
    | some y =>
      have hl : Leads body.blocks x y := ⟨b, hb, Terminator.mem_successors_of_follow hn⟩
      refine Or.inl ⟨y, rfl, rfl, h.closed x hx y hl, ?_⟩
      rintro rfl
      rcases h.alone with he | ⟨-, ho⟩
      · exact he
      · exact (hcl (ho x hx hl)).elim

/-- One step of the new walk is one or two steps of the old one. -/
theorem matches_step (hm : Matches body Live id tgt block new old) :
    ∃ k, 1 ≤ k ∧ Matches body Live id tgt block
      (new.step (body.fold id tgt block sources).blocks oracle) ((Walk.step body.blocks oracle)^[k] old) := by
  rcases hm.places with ⟨x, hold, hnew, hx, he⟩ | ⟨x, hold, hnew⟩
  · obtain ⟨b, hb⟩ := h.exists_block hx
    by_cases hid : x = id
    · -- in front of the folded block: the old walk passes it and the target, the new one the target alone
      subst hid
      obtain rfl : block = b := Option.some.inj (h.found.symm.trans hb)
      obtain ⟨bt, hbt⟩ := h.exists_block h.live_target
      have hat : new.place = .before tgt := by rw [hnew, redirect, if_pos rfl]
      have hf : old.step body.blocks oracle = old.pass oracle x block := Walk.step_of_before hold hb
      have ht : (old.pass oracle x block).place = .before tgt := by
        simp [Walk.pass, h.jumps, Terminator.follow]
      have hmr := h.getElem?_fold h.live_target h.target_ne hbt
      rw [if_pos rfl] at hmr
      refine ⟨2, by omega, ?_⟩
      rw [Function.iterate_succ_apply, Function.iterate_one, hf, Walk.step_of_before ht hbt, Walk.step_of_before hat hmr]
      refine h.matches_pass oracle h.live_target hbt h.target_ne ?_ ?_ ?_
      · simp [Walk.pass, hm.tests, h.jumps, Terminator.condition?]
      · simp only [Walk.pass, List.filter_append, Block.filter_isAction_events, hm.actions, Block.actions, h.jumps, Terminator.condition?]
        simp
      · simp only [Walk.pass, List.filter_append, Block.filter_isOrigin_events, hm.origins, Block.origins, h.jumps, Terminator.condition?]
        simp
    · -- in front of a block that stays as it is
      have hat : new.place = .before x := by rw [hnew, redirect, if_neg hid]
      have hk : (body.fold id tgt block sources).blocks[x]? = some ((b.after ⟨[], .sink, []⟩).renumber (redirect id tgt)) := by
        rw [h.getElem?_fold hx hid hb]
        split
        · rename_i heq
          rw [Block.after_of_isEmpty (he heq)]
          rfl
        · rfl
      refine ⟨1, le_refl 1, ?_⟩
      rw [Function.iterate_one, Walk.step_of_before hold hb, Walk.step_of_before hat hk]
      exact h.matches_pass oracle hx hb hid hm.tests (by simpa using hm.actions) (by simpa using hm.origins)
  · refine ⟨1, le_refl 1, ?_⟩
    rw [Function.iterate_one, Walk.step_of_left hold, Walk.step_of_left hnew]
    exact hm

/-- Wherever the new walk is, the old one comes to the same place, and not sooner. -/
theorem exists_matches (n : Nat) : ∃ m, n ≤ m ∧ Matches body Live id tgt block ((body.fold id tgt block sources).walk oracle n)
      (body.walk oracle m) := by
  induction n with
  | zero =>
    refine ⟨0, le_refl 0, rfl, rfl, rfl, Or.inl ⟨body.entry, rfl, rfl, h.live_entry, ?_⟩⟩
    intro heq
    rcases h.alone with he | ⟨hne, -⟩
    · exact he
    · exact absurd heq.symm hne
  | succ n ih =>
    obtain ⟨m, hnm, hm⟩ := ih
    obtain ⟨k, hk, hs⟩ := h.matches_step oracle hm
    refine ⟨k + m, by omega, ?_⟩
    rw [walk_succ, walk_add]
    exact hs

end

/-- Both walks have shown the same, and have left the body through the sink or have not. -/
theorem Matches.progress_eq (hm : Matches body Live id tgt block new old) (sink : BlockId) :
    decide (new.place = .left sink) = decide (old.place = .left sink) := by
  rcases hm.places with ⟨x, hold, hnew, -, -⟩ | ⟨x, hold, hnew⟩ <;> simp [hold, hnew]

/-- Folding a block keeps the meaning of a body. -/
theorem sameMeaning_fold (h : Foldable body Live id tgt block sources) : SameMeaning (body.fold id tgt block sources) body := by
  intro oracle
  constructor
  · refine Run.agree_of_catchUp ((body.steady_run oracle).only _) fun n => ?_
    obtain ⟨m, hnm, hm⟩ := h.exists_matches oracle n
    refine ⟨m, Or.inl hnm, ?_⟩
    simp only [Run.only, run, hm.actions]
    exact congrArg _ (hm.progress_eq body.sink)
  · refine Run.agree_of_catchUp ((body.steady_run oracle).only _) fun n => ?_
    obtain ⟨m, hnm, hm⟩ := h.exists_matches oracle n
    refine ⟨m, Or.inl hnm, ?_⟩
    simp only [Run.only, run, hm.origins]
    exact congrArg _ (hm.progress_eq body.sink)

end Foldable

end Body

end TagAsm.Flow
