import TagAsm.Proofs.Structured

/-!
# Graphs that realize a plan

A plan is realized by a part of a graph that is entered at one block and goes on with another (`Plan.Realized`). Here: the walk
through that part does what the execution of the plan does. If the plan completes normally the walk comes to the block after
it, if it breaks to the exit of the loop around, if it returns to the sink; and if a loop is cut, the walk has made at least as
many tests as the loop had rounds.
-/

namespace TagAsm.Lower

open TagAsm.Flow Terminator

/-- A block without contents. -/
def Bare (blocks : Table Block) (id : BlockId) (term : Terminator) : Prop := blocks[id]? = some ⟨[], term, []⟩

/-- A block that evaluates an expression. -/
def Holds (blocks : Table Block) (id : BlockId) (root : Root) (term : Terminator) : Prop :=
  blocks[id]? = some ⟨root.code, term, [root.id]⟩

mutual

/-- The blocks realize the plan from block `first` on, and go on with `next`. A break goes to `exit`. -/
def Plan.Realized (blocks : Table Block) : Plan → Option BlockId → BlockId → BlockId → Prop
  | .block [], _, first, next => Bare blocks first (.jump next)
  | .block (plan :: rest), exit, first, next =>
    ∃ mid, plan.Realized blocks exit first mid ∧ Plan.AllRealized blocks rest exit mid next
  | .branch test cond positive negative, exit, first, next =>
    ∃ start other after, Holds blocks first test (.branch cond start other) ∧ Bare blocks after (.jump next) ∧
      positive.Realized blocks exit start after ∧ Plan.ElseRealized blocks negative exit other after
  | .whileLoop test cond body, _, first, next =>
    ∃ start done, Holds blocks first test (.branch cond start done) ∧ Bare blocks done (.jump next) ∧
      body.Realized blocks (some done) start first
  | .doLoop body test cond negated, _, first, next =>
    ∃ check done, Holds blocks check test (if negated then .branch cond done first else .branch cond first done) ∧
      Bare blocks done (.jump next) ∧ body.Realized blocks (some done) first check
  | .breakLoop, exit, first, next => Bare blocks first (.jump (exit.getD next))
  | .returnValue none, _, first, _ => Bare blocks first (.jump Draft.sink)
  | .returnValue (some (root, store)), _, first, _ =>
    blocks[first]? = some ⟨root.code ++ [store], .jump Draft.sink, [root.id]⟩
  | .expression root, _, first, next => Holds blocks first root (.jump next)

/-- The blocks realize the plans one after the other. -/
def Plan.AllRealized (blocks : Table Block) : List Plan → Option BlockId → BlockId → BlockId → Prop
  | [], _, first, next => first = next
  | plan :: rest, exit, first, next =>
    ∃ mid, plan.Realized blocks exit first mid ∧ Plan.AllRealized blocks rest exit mid next

/-- The blocks realize the negative side of a branch, if there is one. -/
def Plan.ElseRealized (blocks : Table Block) : Option Plan → Option BlockId → BlockId → BlockId → Prop
  | none, _, first, next => first = next
  | some plan, exit, first, next => plan.Realized blocks exit first next

end

/-! ## The walk beside the execution -/

/-- The walk is in front of a block, and has shown what the execution has. -/
structure Stands (walk : Walk) (id : BlockId) (trace : Trace) : Prop where
  place : walk.place = .before id
  tests : walk.tests = trace.tests
  events : walk.events.filter Event.isContent = trace.events

section

variable {blocks : Table Block} {walk : Walk} {id next : BlockId} {trace : Trace}

/-- A block shows its expressions, its statements and its test. -/
theorem filter_isContent_events (id : BlockId) (block : Block) :
    (block.events id).filter Event.isContent = block.expressions.map .expression ++ block.statements.map .statement
      ++ block.terminator.condition?.toList.map .test := by
  simp [Block.events, Event.isContent, List.filter_map, Function.comp_def]

theorem Stands.jump (h : Stands walk id trace) (oracle : Nat → Bool) {block : Block} (hb : blocks[id]? = some block)
    (hj : block.terminator = .jump next) :
    Stands (walk.step blocks oracle) next
      ⟨trace.tests, trace.events ++ block.expressions.map .expression ++ block.statements.map .statement⟩ := by
  rw [Walk.step_of_before h.place hb]
  refine ⟨?_, ?_, ?_⟩
  · simp [Walk.pass, hj, follow]
  · simp [Walk.pass, hj, condition?, h.tests]
  · simp [Walk.pass, filter_isContent_events, hj, condition?, h.events]

theorem Stands.bare (h : Stands walk id trace) (oracle : Nat → Bool) (hb : Bare blocks id (.jump next)) :
    Stands (walk.step blocks oracle) next trace := by
  simpa using h.jump oracle hb rfl

/-- Passing a block that evaluates an expression. -/
theorem Stands.evaluate (h : Stands walk id trace) (oracle : Nat → Bool) {root : Root} (hh : Holds blocks id root (.jump next)) :
    Stands (walk.step blocks oracle) next (trace.evaluate root) := by
  simpa [Trace.evaluate, Root.events] using h.jump oracle hh rfl

/-- Passing a block that evaluates an expression and tests its value. -/
theorem Stands.test (h : Stands walk id trace) (oracle : Nat → Bool) {root : Root} {cond : ValueId}
    {pos neg : BlockId} (hh : Holds blocks id root (.branch cond pos neg)) :
    Stands (walk.step blocks oracle) (if oracle trace.tests then pos else neg) (trace.test root cond) := by
  rw [Walk.step_of_before h.place hh]
  refine ⟨?_, ?_, ?_⟩
  · simp [Walk.pass, follow, h.tests]
  · simp [Walk.pass, condition?, Trace.test, h.tests]
  · simp [Walk.pass, filter_isContent_events, condition?, Trace.test, Root.events, h.events]

end

theorem tests_le_iterate_step (blocks : Table Block) (oracle : Nat → Bool) (n : Nat) (walk : Walk) :
    walk.tests ≤ ((Walk.step blocks oracle)^[n] walk).tests := by
  induction n generalizing walk with
  | zero => exact le_refl _
  | succ n ih =>
    rw [Function.iterate_succ_apply]
    refine le_trans ?_ (ih _)
    unfold Walk.step
    split
    · exact le_refl _
    · split
      · simp [Walk.pass]
      · exact le_refl _

/-- The walk comes to block `id` in the end, having shown what the execution shows, and `id` is where the completion of the
execution belongs. -/
def Lands (blocks : Table Block) (oracle : Nat → Bool) (rounds : Nat) (exit : Option BlockId) (next : BlockId) (walk : Walk)
    (res : Completion × Trace) : Prop :=
  ∃ n id, Stands ((Walk.step blocks oracle)^[n] walk) id res.2 ∧ match res.1 with
    | .normal => id = next
    | .broke => exit = some id
    | .returned => id = Draft.sink
    | .cut => walk.tests + rounds ≤ res.2.tests

namespace Lands

variable {blocks : Table Block} {oracle : Nat → Bool} {rounds : Nat} {exit : Option BlockId} {next : BlockId} {walk : Walk}
  {res : Completion × Trace}

theorem of_iterate (n : Nat) (h : Lands blocks oracle rounds exit next ((Walk.step blocks oracle)^[n] walk) res) :
    Lands blocks oracle rounds exit next walk res := by
  obtain ⟨m, id, hs, hw⟩ := h
  refine ⟨m + n, id, by rw [Function.iterate_add_apply]; exact hs, ?_⟩
  have hle := tests_le_iterate_step blocks oracle n walk
  cases hc : res.1 <;> simp only [hc] at hw ⊢
  · exact hw
  · exact hw
  · exact hw
  · omega

theorem of_step (h : Lands blocks oracle rounds exit next (walk.step blocks oracle) res) :
    Lands blocks oracle rounds exit next walk res :=
  of_iterate 1 h

theorem bare {after : BlockId} (h : Lands blocks oracle rounds exit after walk res)
    (hb : Bare blocks after (.jump next)) : Lands blocks oracle rounds exit next walk res := by
  obtain ⟨n, id, hs, hw⟩ := h
  cases hc : res.1 <;> simp only [hc] at hw
  · subst hw
    refine ⟨n + 1, next, ?_, by simp only [hc]⟩
    rw [Function.iterate_succ_apply']
    exact hs.bare oracle hb
  all_goals exact ⟨n, id, hs, by simpa only [hc] using hw⟩

theorem of_stands {trace : Trace} (h : Stands walk next trace) : Lands blocks oracle rounds exit next walk (.normal, trace) :=
  ⟨0, next, h, rfl⟩

/-- What never breaks lands in the same way in a loop. -/
theorem of_none (h : Lands blocks oracle rounds none next walk res) : Lands blocks oracle rounds exit next walk res := by
  obtain ⟨n, id, hs, hw⟩ := h
  refine ⟨n, id, hs, ?_⟩
  cases hc : res.1 <;> simp only [hc] at hw ⊢
  · exact hw
  · cases hw
  · exact hw
  · exact hw

end Lands

/-- If every round starts at `head`, goes back there or leaves for `done`, and makes a test before it goes back, then the loop
goes on with `done`, and is not cut before it has made as many tests as it has rounds. -/
theorem lands_repeatRounds {blocks : Table Block} {oracle : Nat → Bool} {rounds : Nat} {head done : BlockId}
    {round : Trace → Completion × Trace}
    (hrn : ∀ walk trace, Stands walk head trace → Lands blocks oracle rounds (some done) head walk (round trace) ∧
      ((round trace).1 = .normal → trace.tests < (round trace).2.tests))
    (k : Nat) (hk : k ≤ rounds) (walk : Walk) (trace : Trace) (hs : Stands walk head trace) :
    Lands blocks oracle k none done walk (repeatRounds round k trace) := by
  induction k generalizing walk trace with
  | zero => exact ⟨0, head, hs, by simp [repeatRounds, hs.tests]⟩
  | succ k ih =>
    obtain ⟨⟨n, id, ht, hw⟩, hl⟩ := hrn walk trace hs
    rw [repeatRounds]
    rcases hr : round trace with ⟨completion, after⟩
    rw [hr] at ht hw hl
    cases completion with
    | normal =>
      obtain rfl : id = head := hw
      obtain ⟨m, goal, hg, ha⟩ := ih (by omega) _ after ht
      refine ⟨m + n, goal, by rw [Function.iterate_add_apply]; exact hg, ?_⟩
      have hst := hs.tests
      have hm := ht.tests
      have hmr := hl rfl
      cases hc : (repeatRounds round k after).1 <;> simp only [hc] at ha ⊢
      · exact ha
      · exact ha
      · exact ha
      · omega
    | broke =>
      obtain rfl : done = id := Option.some.inj hw
      exact ⟨n, done, ht, rfl⟩
    | returned => exact ⟨n, id, ht, hw⟩
    | cut =>
      have hcut : walk.tests + rounds ≤ after.tests := hw
      exact ⟨n, id, ht, (by omega : walk.tests + (k + 1) ≤ after.tests)⟩

section

variable {blocks : Table Block} {oracle : Nat → Bool} {rounds : Nat} {test : Root} {cond : ValueId} {first done : BlockId}
  {body : Trace → Completion × Trace}

/-- A round of a loop that tests first. -/
theorem lands_whileRound {start : BlockId} (hts : Holds blocks first test (.branch cond start done))
    (hb : ∀ walk trace, Stands walk start trace → Lands blocks oracle rounds (some done) first walk (body trace))
    (walk : Walk) (trace : Trace) (hs : Stands walk first trace) :
    let res := if oracle trace.tests then body (trace.test test cond) else (.broke, trace.test test cond)
    Lands blocks oracle rounds (some done) first walk res ∧ (res.1 = .normal → trace.tests < res.2.tests) := by
  have ht := hs.test oracle hts
  cases ho : oracle trace.tests with
  | true =>
    rw [ho, if_pos rfl] at ht
    have hl := hb _ _ ht
    refine ⟨hl.of_step, fun _ => ?_⟩
    obtain ⟨n, id, hth, -⟩ := hl
    have hle := tests_le_iterate_step blocks oracle n (walk.step blocks oracle)
    rw [hth.tests, ht.tests] at hle
    exact hle
  | false =>
    rw [ho, if_neg Bool.false_ne_true] at ht
    exact ⟨⟨1, done, ht, rfl⟩, fun hn => nomatch hn⟩

/-- A round of a loop that tests last. -/
theorem lands_doRound {check : BlockId} {negated : Bool}
    (hts : Holds blocks check test (if negated then .branch cond done first else .branch cond first done))
    (hb : ∀ walk trace, Stands walk first trace → Lands blocks oracle rounds (some done) check walk (body trace))
    (walk : Walk) (trace : Trace) (hs : Stands walk first trace) : let res := match body trace with
      | (.normal, trace) => (if oracle trace.tests = negated then .broke else .normal, trace.test test cond)
      | (completion, trace) => (completion, trace)
    Lands blocks oracle rounds (some done) first walk res ∧ (res.1 = .normal → trace.tests < res.2.tests) := by
  obtain ⟨n, id, ht, hw⟩ := hb walk trace hs
  have hle := tests_le_iterate_step blocks oracle n walk
  rw [ht.tests, hs.tests] at hle
  rcases hr : body trace with ⟨completion, after⟩
  rw [hr] at ht hw hle
  cases completion with
  | normal =>
    obtain rfl : id = check := hw
    -- the loop is left when the outcome is `negated`, and the branch has its sides accordingly
    have htd : Stands ((Walk.step blocks oracle)^[n + 1] walk) (if oracle after.tests = negated then done else first)
        (after.test test cond) := by
      rw [Function.iterate_succ_apply']
      cases negated with
      | true =>
        rw [if_pos rfl] at hts
        exact ht.test oracle hts
      | false =>
        rw [if_neg Bool.false_ne_true] at hts
        have h := ht.test oracle hts
        cases ho : oracle after.tests <;> simpa [ho] using h
    refine ⟨⟨n + 1, _, htd, ?_⟩, fun _ => Nat.lt_succ_of_le hle⟩
    by_cases hl : oracle after.tests = negated
    · simp [hl]
    · simp [hl]
  | broke | returned | cut => exact ⟨⟨n, id, ht, hw⟩, fun hn => nomatch hn⟩

end

variable {blocks : Table Block} {oracle : Nat → Bool} (rounds : Nat)

mutual

/-- The walk through a part that realizes a plan does what the execution of the plan does. -/
theorem exec_lands : ∀ (plan : Plan) (exit : Option BlockId) (first next : BlockId) (walk : Walk) (trace : Trace),
    plan.Realized blocks exit first next → Stands walk first trace →
    Lands blocks oracle rounds exit next walk (plan.exec oracle rounds exit.isSome trace)
  | .block [], _, _, _, _, _, hr, hs =>
    (Lands.of_stands (hs.bare oracle hr)).of_step
  | .block (plan :: rest), _, _, _, _, _, hr, hs =>
    execAll_lands (plan :: rest) _ _ _ _ _ hr hs
  | .branch test cond pos neg, exit, _, _, _, trace, hr, hs => by
    obtain ⟨start, other, after, ht, ha, hp, hn⟩ := hr
    have hts := hs.test oracle ht
    rw [Plan.exec]
    cases ho : oracle trace.tests with
    | true =>
      rw [ho, if_pos rfl] at hts
      rw [if_pos rfl]
      exact ((exec_lands pos exit _ _ _ _ hp hts).bare ha).of_step
    | false =>
      rw [ho, if_neg Bool.false_ne_true] at hts
      rw [if_neg Bool.false_ne_true]
      exact ((execElse_lands neg exit _ _ _ _ hn hts).bare ha).of_step
  | .whileLoop test cond body, _, first, _, walk, trace, hr, hs => by
    obtain ⟨start, done, ht, hd, hb⟩ := hr
    have hrn := lands_whileRound ht fun _ _ => exec_lands body (some done) _ _ _ _ hb
    exact ((lands_repeatRounds hrn rounds (le_refl _) walk trace hs).bare hd).of_none
  | .doLoop body test cond negated, _, first, _, walk, trace, hr, hs => by
    obtain ⟨check, done, ht, hd, hb⟩ := hr
    have hrn := lands_doRound ht fun _ _ => exec_lands body (some done) _ _ _ _ hb
    exact ((lands_repeatRounds hrn rounds (le_refl _) walk trace hs).bare hd).of_none
  | .breakLoop, exit, _, _, _, _, hr, hs => by
    cases exit with
    | none => exact (Lands.of_stands (hs.bare oracle hr)).of_step
    | some exit => exact ⟨1, exit, hs.bare oracle hr, rfl⟩
  | .returnValue none, _, _, _, _, _, hr, hs =>
    ⟨1, Draft.sink, hs.bare oracle hr, rfl⟩
  | .returnValue (some (root, store)), _, _, _, _, _, hr, hs => by
    refine ⟨1, Draft.sink, ?_, rfl⟩
    simpa [Plan.exec, Trace.execute, Trace.evaluate, Root.events] using hs.jump oracle hr rfl
  | .expression root, _, _, _, _, _, hr, hs =>
    (Lands.of_stands (hs.evaluate oracle hr)).of_step

/-- The walk through parts that realize plans one after the other does what the execution of the plans does. -/
theorem execAll_lands : ∀ (plans : List Plan) (exit : Option BlockId) (first next : BlockId) (walk : Walk) (trace : Trace),
    Plan.AllRealized blocks plans exit first next → Stands walk first trace →
    Lands blocks oracle rounds exit next walk (Plan.execAll oracle rounds plans exit.isSome trace)
  | [], _, _, _, _, _, hr, hs => .of_stands (hr ▸ hs)
  | plan :: rest, exit, _, _, _, trace, hr, hs => by
    obtain ⟨mid, hp, hrs⟩ := hr
    obtain ⟨n, id, ht, hw⟩ := exec_lands plan exit _ _ _ _ hp hs
    rw [Plan.execAll]
    rcases hrl : plan.exec oracle rounds exit.isSome trace with ⟨completion, after⟩
    rw [hrl] at ht hw
    cases completion with
    | normal =>
      obtain rfl : id = mid := hw
      exact (execAll_lands rest exit _ _ _ after hrs ht).of_iterate n
    | broke | returned | cut => exact ⟨n, id, ht, hw⟩

/-- The walk through the negative side of a branch does what its execution does. -/
theorem execElse_lands : ∀ (plan : Option Plan) (exit : Option BlockId) (first next : BlockId) (walk : Walk) (trace : Trace),
    Plan.ElseRealized blocks plan exit first next → Stands walk first trace →
    Lands blocks oracle rounds exit next walk (Plan.execElse oracle rounds plan exit.isSome trace)
  | none, _, _, _, _, _, hr, hs => .of_stands (hr ▸ hs)
  | some plan, _, _, _, _, _, hr, hs => exec_lands plan _ _ _ _ _ hr hs

end

end TagAsm.Lower
