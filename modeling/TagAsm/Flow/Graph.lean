import TagAsm.Flow.Basic

/-!
# The graph of a body

Reachability, renumbering, and the check that a body is well formed. Blocks are visited depth first from the entry, the
positive edge of a branch before the negative one. An edge to a block that does not exist is a fault once it is followed.
-/

namespace TagAsm.Flow

namespace Body

/-- Visits the blocks on the stack that were not visited before, and what they lead to. Every visit puts at most two blocks
on the stack, so `fuel` need not exceed twice the number of blocks, and one. -/
def visit (blocks : Table Block) : Nat → List BlockId → List BlockId → Except Fault (List BlockId)
  | 0, _, visited => .ok visited
  | _ + 1, [], visited => .ok visited
  | fuel + 1, id :: stack, visited =>
    if id ∈ visited then
      visit blocks fuel stack visited
    else do
      let block ← blocks.fetch .block id
      visit blocks fuel (block.terminator.successors ++ stack) (visited ++ [id])

/-- The blocks that can be reached from the entry, in the order of a depth first search. -/
def reachable (body : Body) : Except Fault (List BlockId) :=
  visit body.blocks (2 * body.blocks.length + 1) [body.entry] []

/-! ## Renumbering -/

/-- The blocks to keep, in their new order: the entry first, the sink last, the others in between as they stood. -/
def compactOrder (body : Body) (keep : List BlockId) : List BlockId :=
  body.entry :: body.blocks.ids.filter (fun id => id ∈ keep ∧ id ≠ body.entry ∧ id ≠ body.sink)
    ++ (if body.sink = body.entry then [] else [body.sink])

/-- The new number of a block among `size` blocks: its place in the new order. A block that is not kept has no place and
keeps its number. -/
def newNumber (size : Nat) (order : List BlockId) (id : BlockId) : Except Fault BlockId :=
  if id < size then .ok ((order.idxOf? id).getD id) else .error (.outOfRange .block id)

/-- Keeps the blocks in `keep`, the entry and the sink, and numbers them anew. -/
def compact (body : Body) (keep : List BlockId) : Except Fault Body := do
  let order := body.compactOrder keep
  let name := newNumber body.blocks.length order
  let blocks ← order.mapM fun id => do
    let block ← body.blocks.fetch .block id
    let terminator ← block.terminator.rename name
    return { block with terminator }
  let entry ← name body.entry
  let sink ← name body.sink
  return { body with blocks, entry, sink }

/-- Drops the blocks that cannot be reached. The sink stays, reached or not. -/
def prune (body : Body) : Except Fault Body := do
  let reachable ← body.reachable
  body.compact (reachable ++ [body.sink])

end Body

/-! ## Well-formedness -/

/-- What is wrong with a body. -/
inductive Defect where
  | unreachable (block : BlockId)
  | danglingEdge (block target : BlockId)
  | straySink (block : BlockId)
  | missingSink (block : BlockId)
  | undeclaredValue (block : BlockId) (value : ValueId)
  deriving DecidableEq, Repr

namespace Defect

/-- A block as messages show it. -/
def blockText (id : BlockId) : String := "BlockId(" ++ toString id ++ ")"

/-- A value as messages show it. -/
def valueText (id : ValueId) : String := "ValueId(" ++ toString id ++ ")"

/-- The defect in words. -/
def message : Defect → String
  | .unreachable block => blockText block ++ " is not reachable from the entry block"
  | .danglingEdge block target => blockText block ++ " jumps to " ++ blockText target ++ ", which does not exist"
  | .straySink block => blockText block ++ " is not the sink block but has a sink terminator"
  | .missingSink block => "the sink block " ++ blockText block ++ " does not end in a sink terminator"
  | .undeclaredValue block value => valueText value ++ " is used in " ++ blockText block ++ " but never declared"

end Defect

/-- The values that a block mentions: those of its statements and the one it tests. -/
def Block.values (block : Block) : List ValueId :=
  block.statements.flatMap Statement.values ++ block.terminator.condition?.toList

namespace Body

/-- An edge of the block that leads nowhere. -/
def danglingEdge? (body : Body) (id : BlockId) (block : Block) : Option Defect :=
  (block.terminator.successors.find? (body.blocks.length ≤ ·)).map (.danglingEdge id)

/-- A value of the block that the body does not have. -/
def undeclaredValue? (body : Body) (id : BlockId) (block : Block) : Option Defect :=
  (block.values.find? (body.values.length ≤ ·)).map (.undeclaredValue id)

/-- The sink leaves the body, and no other block does. -/
def sinkDefect? (body : Body) (id : BlockId) (block : Block) : Option Defect :=
  if block.terminator = .sink then
    if id = body.sink then none else some (.straySink id)
  else
    if id = body.sink then some (.missingSink id) else none

/-- What is wrong with a block on its own. -/
def blockDefect? (body : Body) (id : BlockId) (block : Block) : Option Defect :=
  body.danglingEdge? id block <|> body.undeclaredValue? id block <|> body.sinkDefect? id block

/-- The first defect of a body: the blocks are checked one by one, and reachability after all of them. -/
def defect? (body : Body) : Except Fault (Option Defect) :=
  match body.blocks.entries.findSome? fun (id, block) => body.blockDefect? id block with
  | some defect => .ok (some defect)
  | none => do
    let reachable ← body.reachable
    return (body.blocks.ids.find? fun id => id ≠ body.sink ∧ id ∉ reachable).map .unreachable

end Body

end TagAsm.Flow
