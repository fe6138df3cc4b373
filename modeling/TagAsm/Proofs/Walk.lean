import Mathlib.Logic.Function.Iterate
import TagAsm.Proofs.Renumbering
import TagAsm.Proofs.Runs

/-!
# Walking through a body

What a body does, apart from what its statements compute: from the entry, each block is passed from top to bottom and left
through its terminator. What the tests find is not known here, so an oracle answers them, one after the other. A walk shows
the blocks it passes, the source expressions it evaluates, the statements it executes and the values it tests. It ends when it
leaves the body through the sink.
-/

namespace TagAsm.Flow

/-- What can be seen of a walk. -/
inductive Event where
  /-- The walk enters a block. -/
  | block (id : BlockId)
  /-- The block at hand evaluates a source expression. -/
  | expression (id : Source.ExprId)
  /-- A statement is executed. -/
  | statement (executed : Statement)
  /-- A value is tested. -/
  | test (cond : ValueId)
  deriving DecidableEq, Repr

namespace Event

/-- The event shows what happens, not where. -/
def isContent : Event → Bool
  | .block _ => false
  | .expression _ | .statement _ | .test _ => true

/-- A statement or a test. -/
def isAction : Event → Bool
  | .statement _ | .test _ => true
  | .block _ | .expression _ => false

/-- A source expression or a test. -/
def isOrigin : Event → Bool
  | .expression _ | .test _ => true
  | .block _ | .statement _ => false

end Event

/-- The block that a terminator goes to if a test comes out this way. -/
def Terminator.follow (out : Bool) : Terminator → Option BlockId
  | .branch _ positive negative => some (if out then positive else negative)
  | .jump target => some target
  | .sink => none

variable {out : Bool} {term : Terminator}

/-- A terminator follows one of its edges. -/
theorem Terminator.mem_successors_of_follow {next : BlockId} (h : term.follow out = some next) : next ∈ term.successors := by
  cases term with
  | branch cond pos neg =>
    cases out <;> simp_all [follow]
  | jump tgt => simp_all [follow]
  | sink => simp [follow] at h

/-- Only the way out follows no edge. -/
theorem Terminator.eq_sink_of_follow (h : term.follow out = none) : term = .sink := by
  cases term with
  | branch cond pos neg => exact nomatch h
  | jump tgt => exact nomatch h
  | sink => rfl

/-- What can be seen when a block is passed. -/
def Block.events (id : BlockId) (block : Block) : List Event :=
  .block id :: (block.expressions.map .expression ++ block.statements.map .statement ++ block.terminator.condition?.toList.map .test)

/-- Where a walk is. -/
inductive Place where
  /-- In front of a block. -/
  | before (id : BlockId)
  /-- Out of the body, which was left from this block. -/
  | left (id : BlockId)
  deriving DecidableEq, Repr

/-- A walk under way. -/
structure Walk where
  place : Place
  /-- How many tests the oracle has answered. -/
  tests : Nat
  events : List Event
  deriving DecidableEq, Repr

namespace Walk

/-- Passes a block. -/
def pass (oracle : Nat → Bool) (id : BlockId) (block : Block) (walk : Walk) : Walk where
  place := ((block.terminator.follow (oracle walk.tests)).map Place.before).getD (.left id)
  tests := walk.tests + block.terminator.condition?.toList.length
  events := walk.events ++ block.events id

/-- Passes the block that the walk is in front of, if there is such a block. -/
def step (blocks : Table Block) (oracle : Nat → Bool) (walk : Walk) : Walk :=
  match walk.place with
  | .left _ => walk
  | .before id =>
    match blocks[id]? with
    | some block => walk.pass oracle id block
    | none => walk

end Walk

namespace Body

/-- The walk through a body after so many blocks. -/
def walk (body : Body) (oracle : Nat → Bool) (steps : Nat) : Walk :=
  (Walk.step body.blocks oracle)^[steps] ⟨.before body.entry, 0, []⟩

/-- The walk through a body as a run, which is over once the body has been left through the sink. -/
def run (body : Body) (oracle : Nat → Bool) : Run Event := fun steps =>
  ⟨(body.walk oracle steps).events, (body.walk oracle steps).place = .left body.sink⟩

end Body

namespace Walk

variable {blocks : Table Block} {oracle : Nat → Bool}

/-- A walk in front of a block that exists passes it. -/
theorem step_of_before {walk : Walk} {id : BlockId} {block : Block} (hp : walk.place = .before id)
    (hb : blocks[id]? = some block) : walk.step blocks oracle = walk.pass oracle id block := by
  simp [step, hp, hb]

/-- A walk that has left the body stays out. -/
theorem step_of_left {walk : Walk} {id : BlockId} (hp : walk.place = .left id) : walk.step blocks oracle = walk := by
  simp [step, hp]

/-- A step takes nothing back. -/
theorem events_prefix_step (walk : Walk) : walk.events <+: (walk.step blocks oracle).events := by
  unfold step
  split
  · exact List.prefix_refl _
  · split
    · exact List.prefix_append _ _
    · exact List.prefix_refl _

end Walk

namespace Body

variable {body : Body} {oracle : Nat → Bool}

section

variable (body : Body) (oracle : Nat → Bool)

theorem walk_succ (n : Nat) : body.walk oracle (n + 1) = (body.walk oracle n).step body.blocks oracle :=
  Function.iterate_succ_apply' _ _ _

theorem walk_add (k n : Nat) : body.walk oracle (k + n) = (Walk.step body.blocks oracle)^[k] (body.walk oracle n) :=
  Function.iterate_add_apply _ _ _ _

/-- The walk through a body is a steady run. -/
theorem steady_run : (body.run oracle).Steady := by
  apply Run.steady_of_succ
  intro n
  simp only [run, walk_succ, decide_eq_true_eq, Progress.mk.injEq]
  refine ⟨Walk.events_prefix_step _, fun hend => ?_⟩
  rw [Walk.step_of_left hend]
  exact ⟨rfl, rfl⟩

end

/-- A walk stays among the blocks, and leaves from the sink. -/
theorem Wired.walk_place (h : body.Wired) (oracle : Nat → Bool) (n : Nat) :
    (∀ id, (body.walk oracle n).place = .before id → id < body.blocks.length) ∧
      ∀ id, (body.walk oracle n).place = .left id → id = body.sink := by
  induction n with
  | zero => exact ⟨fun id hid => Place.before.inj hid ▸ h.entry_lt, fun id hid => (nomatch hid)⟩
  | succ n ih =>
    rw [walk_succ]
    cases hp : (body.walk oracle n).place with
    | left id =>
      rw [Walk.step_of_left hp]
      exact ih
    | before id =>
      have hb : body.blocks[id]? = some (body.blocks.get ⟨id, ih.1 id hp⟩) := List.getElem?_eq_getElem _
      rw [Walk.step_of_before hp hb]
      simp only [Walk.pass]
      cases hf : (body.blocks.get ⟨id, ih.1 id hp⟩).terminator.follow (oracle (body.walk oracle n).tests) with
      | none =>
        have hs : (body.blocks.get ⟨id, ih.1 id hp⟩).terminator = .sink := Terminator.eq_sink_of_follow hf
        exact ⟨fun _ hid => (nomatch hid), fun _ hid => Place.left.inj hid ▸ (h.leaves id _ hb).mp hs⟩
      | some next =>
        have hn := h.edges id next ⟨_, hb, Terminator.mem_successors_of_follow hf⟩
        exact ⟨fun _ hid => Place.before.inj hid ▸ hn, fun _ hid => (nomatch hid)⟩

end Body

/-! ## Bodies that do the same -/

/-- Two bodies do the same: whatever the tests find, they execute the same statements between the same tests, evaluate the same
source expressions between the same tests, and leave through the sink in the same cases. -/
def SameMeaning (a b : Body) : Prop :=
  ∀ oracle, ((a.run oracle).only Event.isAction).Agree ((b.run oracle).only Event.isAction) ∧
    ((a.run oracle).only Event.isOrigin).Agree ((b.run oracle).only Event.isOrigin)

theorem SameMeaning.refl (a : Body) : SameMeaning a a := fun _ => ⟨Run.Agree.refl _, Run.Agree.refl _⟩

theorem SameMeaning.trans {a b c : Body} (hab : SameMeaning a b) (hbc : SameMeaning b c) : SameMeaning a c := fun oracle =>
  ⟨(hab oracle).1.trans (hbc oracle).1, (hab oracle).2.trans (hbc oracle).2⟩

/-! ## Renumbering -/

/-- The event under the new numbers of blocks. -/
def Event.renumber (num : BlockId → BlockId) : Event → Event
  | .block id => .block (num id)
  | .expression id => .expression id
  | .statement executed => .statement executed
  | .test condition => .test condition

/-- The place under the new numbers of blocks. -/
def Place.renumber (num : BlockId → BlockId) : Place → Place
  | .before id => .before (num id)
  | .left id => .left (num id)

/-- The walk under the new numbers of blocks. -/
def Walk.renumber (num : BlockId → BlockId) (walk : Walk) : Walk :=
  ⟨walk.place.renumber num, walk.tests, walk.events.map (Event.renumber num)⟩

/-- The block that a place is about. -/
def Place.id : Place → BlockId
  | .before id | .left id => id

theorem Terminator.follow_renumber (out : Bool) (num : BlockId → BlockId) (term : Terminator) :
    (term.renumber num).follow out = (term.follow out).map num := by
  cases term with
  | branch cond pos neg => cases out <;> rfl
  | jump tgt => rfl
  | sink => rfl

theorem Terminator.condition?_renumber (num : BlockId → BlockId) (term : Terminator) :
    (term.renumber num).condition? = term.condition? := by
  cases term <;> rfl

theorem Block.events_renumber (num : BlockId → BlockId) (id : BlockId) (block : Block) :
    (block.renumber num).events (num id) = (block.events id).map (Event.renumber num) := by
  simp [events, renumber, Terminator.condition?_renumber, Event.renumber, Function.comp_def]

/-- Passing a renumbered block is passing the block, under the new numbers. -/
theorem Walk.pass_renumber (oracle : Nat → Bool) (num : BlockId → BlockId) (id : BlockId) (block : Block) (walk : Walk) :
    (walk.renumber num).pass oracle (num id) (block.renumber num) = (walk.pass oracle id block).renumber num := by
  have hf : (block.renumber num).terminator.follow (oracle walk.tests) =
      (block.terminator.follow (oracle walk.tests)).map num := Terminator.follow_renumber _ _ _
  have hc : (block.renumber num).terminator.condition? = block.terminator.condition? := Terminator.condition?_renumber _ _
  simp only [pass, renumber, hf, hc, Block.events_renumber, List.map_append]
  cases block.terminator.follow (oracle walk.tests) <;> rfl

namespace Body.Renumbered

variable {body res : Body} {order : List BlockId}

variable (h : Renumbered body res order) (oracle : Nat → Bool)
include h

/-- The walk through the renumbered body is the walk through the body, under the new numbers. It does not leave the blocks
that were kept. -/
theorem walk_eq (n : Nat) : res.walk oracle n = (body.walk oracle n).renumber order.idxOf ∧ (body.walk oracle n).place.id ∈ order := by
  induction n with
  | zero =>
    refine ⟨?_, h.entry_mem⟩
    have he : res.entry = order.idxOf body.entry := by rw [h.result_eq]
    simp [walk, Walk.renumber, Place.renumber, he]
  | succ n ih =>
    obtain ⟨heq, hmem⟩ := ih
    rw [walk_succ, walk_succ, heq]
    cases hp : (body.walk oracle n).place with
    | left id =>
      have hp' : ((body.walk oracle n).renumber order.idxOf).place = .left (order.idxOf id) := by
        simp [Walk.renumber, hp, Place.renumber]
      rw [Walk.step_of_left hp, Walk.step_of_left hp']
      exact ⟨rfl, hmem⟩
    | before id =>
      have hid : id ∈ order := by simpa [hp, Place.id] using hmem
      have hin := h.inRange id hid
      have hb : body.blocks[id]? = some body.blocks[id] := List.getElem?_eq_getElem hin
      have hnew : res.blocks[order.idxOf id]? = some (body.blocks[id].renumber order.idxOf) := by
        rw [h.block_eq id hid, hb]
        rfl
      have hp' : ((body.walk oracle n).renumber order.idxOf).place = .before (order.idxOf id) := by
        simp [Walk.renumber, hp, Place.renumber]
      rw [Walk.step_of_before hp hb, Walk.step_of_before hp' hnew]
      refine ⟨Walk.pass_renumber oracle (fun old => order.idxOf old) id _ _, ?_⟩
      simp only [Walk.pass]
      cases hf : body.blocks[id].terminator.follow (oracle (body.walk oracle n).tests) with
      | none => exact hid
      | some next => exact h.closed id hid next ⟨_, hb, Terminator.mem_successors_of_follow hf⟩

/-- Renumbering changes nothing but the numbers of the blocks that a walk passes. -/
theorem only_content_run : (res.run oracle).only Event.isContent = (body.run oracle).only Event.isContent := by
  have hs : res.sink = order.idxOf body.sink := by rw [h.result_eq]
  have he : ∀ events : List Event, (events.map (Event.renumber order.idxOf)).filter Event.isContent = events.filter Event.isContent := by
    intro events
    induction events with
    | nil => rfl
    | cons event events ih =>
      cases event <;> simp_all [Event.renumber, Event.isContent, List.filter_cons]
  funext n
  obtain ⟨heq, hmem⟩ := h.walk_eq oracle n
  simp only [Run.only, run, heq, Walk.renumber, he, hs, Progress.mk.injEq, true_and, decide_eq_decide]
  cases hp : (body.walk oracle n).place with
  | before id => simp [Place.renumber]
  | left id =>
    rw [hp] at hmem
    simp only [Place.renumber, Place.left.injEq]
    exact List.idxOf_inj hmem

end Body.Renumbered

end TagAsm.Flow
