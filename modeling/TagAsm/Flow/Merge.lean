import TagAsm.Flow.Graph

/-!
# Merging blocks

A block that ends in a jump is folded into the block it jumps to, if it is empty or if it is the only way there. What it does
is put in front of what the other block does, and whoever went to the folded block goes to the other one instead. Nothing is
ever put in front of the entry, which can be entered from outside. A round looks at every reachable block once, and rounds
go on until one of them folds nothing.
-/

namespace TagAsm.Flow

/-- An edge of the graph: a block, and a block that it can go to. -/
abbrev Edge := BlockId × BlockId

namespace Body

/-- The edges that leave the given blocks. -/
def edgesFrom (body : Body) (ids : List BlockId) : List Edge :=
  ids.flatMap fun id =>
    match body.blocks[id]? with
    | some block => block.terminator.successors.map fun target => (id, target)
    | none => []

/-- Follows the blocks on the stack that were not followed before, and what they lead to, and takes down every edge on the way.
What a block leads to last is followed first. The fuel that a visit needs is enough. -/
def follow (blocks : Table Block) : Nat → List BlockId → List BlockId → List Edge → Except Fault (List Edge)
  | 0, _, _, edges => .ok edges
  | _ + 1, [], _, edges => .ok edges
  | fuel + 1, id :: stack, visited, edges =>
    if id ∈ visited then
      follow blocks fuel stack visited edges
    else do
      let block ← blocks.fetch .block id
      let targets := block.terminator.successors
      follow blocks fuel (targets.reverse ++ stack) (visited ++ [id]) (edges ++ targets.map fun target => (id, target))

/-- The entry and every block that an edge leads to, with the blocks that lead to it, both in ascending order. -/
def predecessors (body : Body) : Except Fault (List (BlockId × List BlockId)) := do
  let edges ← follow body.blocks (2 * body.blocks.length + 1) [body.entry] [] []
  let found := body.blocks.ids.filter fun id => id = body.entry ∨ id ∈ edges.map Prod.snd
  return found.map fun id => (id, body.blocks.ids.filter fun source => (source, id) ∈ edges)

/-- Puts the contents of block `id` in front of those of `target`, and sends the blocks in `sources` to `target` where they
went to `id`. -/
def fold (body : Body) (id target : BlockId) (contents : Block) (sources : List BlockId) : Body :=
  let blocks := body.blocks.modify id fun block => { block with statements := [], expressions := [] }
  let blocks := blocks.modify target fun block =>
    { block with
      statements := contents.statements ++ block.statements
      expressions := contents.expressions ++ block.expressions }
  let blocks := blocks.mapIdx fun source block =>
    if source ∈ sources then { block with terminator := block.terminator.retarget id target } else block
  { body with blocks, entry := if body.entry = id then target else body.entry }

end Body

/-- A round under way. -/
structure MergeRound where
  body : Body
  /-- The edges between the blocks that are left. -/
  edges : List Edge
  /-- The blocks folded so far. -/
  folded : List BlockId

namespace MergeRound

/-- The blocks that lead to `id`. -/
def sources (round : MergeRound) (id : BlockId) : List BlockId :=
  (round.edges.filter fun edge => edge.2 = id).map Prod.fst

/-- Whether `id` is the only way to `target`. -/
def isOnlyWay (round : MergeRound) (id target : BlockId) : Bool :=
  target ≠ round.body.entry && !(round.sources target).isEmpty && (round.sources target).all (· = id)

/-- The edges once `id` has been folded into `target`. -/
def foldEdges (edges : List Edge) (id target : BlockId) : List Edge :=
  (edges.filter fun edge => edge.1 ≠ id).map fun edge => (edge.1, if edge.2 = id then target else edge.2)

/-- Where block `id` can be folded to, and what it holds. -/
def target? (round : MergeRound) (id : BlockId) : Option (BlockId × Block) :=
  if id ∈ round.folded then none
  else
    match round.body.blocks[id]? with
    | some block =>
      match block.terminator with
      | .jump target =>
        if target = id ∨ target ∈ round.folded then none
        else if block.isEmpty || round.isOnlyWay id target then some (target, block)
        else none
      | _ => none
    | none => none

/-- Looks at one block, and folds it if it can be folded. -/
def step (round : MergeRound) (id : BlockId) : MergeRound :=
  match round.target? id with
  | some (target, block) =>
    { body := round.body.fold id target block (round.sources id)
      edges := foldEdges round.edges id target
      folded := round.folded ++ [id] }
  | none => round

end MergeRound

namespace Body

/-- One round over the blocks that can be reached. Its edges are those that `predecessors` tells. -/
def mergeRound (body : Body) : Except Fault MergeRound := do
  let reachable ← body.reachable
  return reachable.foldl MergeRound.step ⟨body, body.edgesFrom reachable, []⟩

/-- Runs up to `rounds` rounds, until one of them folds nothing. The number of folded blocks comes with the body. -/
def mergeRounds : Nat → Body → Except Fault (Nat × Body)
  | 0, body => .ok (0, body)
  | rounds + 1, body => do
    let round ← body.mergeRound
    if round.folded.isEmpty then
      return (0, round.body)
    let body ← round.body.prune
    let (folded, body) ← mergeRounds rounds body
    return (round.folded.length + folded, body)

/-- Merges blocks until nothing is left to merge. Every round but the last folds a block that was reachable, so there are
not more rounds than blocks, and one. -/
def merge (body : Body) : Except Fault (Nat × Body) := mergeRounds (body.blocks.length + 1) body

end Body

/-- Merges the blocks of a subroutine that has any. -/
def Subroutine.merge (subroutine : Subroutine) : Except Fault Subroutine := do
  match subroutine.kind with
  | .defined body =>
    let (_, body) ← body.merge
    return { subroutine with kind := .defined body }
  | .declared | .imported .. => return subroutine

/-- Merges the blocks of every subroutine. -/
def Program.merge (program : Program) : Except Fault Program := do
  let subroutines ← program.subroutines.mapM Subroutine.merge
  return { program with subroutines }

end TagAsm.Flow
