import TagAsm.Lower.Expr

/-!
# Lowering statements

A statement becomes a segment of the graph: it is entered at its first block and, unless it breaks or returns, goes on from
its last block, which is left open. Whoever comes next connects the two. Blocks are numbered in the order in which they are
made, and that order is part of what a body looks like.
-/

namespace TagAsm.Lower

open TagAsm.Flow
open Source (Stmt Expr)

/-- The part of the graph that a statement became. -/
structure Segment where
  first : BlockId
  last : BlockId
  deriving DecidableEq, Repr

/-- The segment of one block. -/
def Segment.single (id : BlockId) : Segment := ⟨id, id⟩

/-- A block that evaluates an expression to a value, for a test. -/
def lowerTest (scope : Scope) (condition : Expr) : LowerM (BlockId × ValueId) := do
  let value ← lowerValue scope condition
  let test ← newBlock [condition.info.id]
  return (test, value)

/-- A break goes to the end of the innermost loop. Outside of loops it is an error, and does nothing. -/
def lowerBreak (exit : Option BlockId) (location : Location) : LowerM Segment := do
  let block ← newBlock []
  match exit with
  | some exit => terminate block (.jump exit)
  | none => error .unexpectedBreak location "`break` outside of a loop"
  return .single block

/-- A return puts its value into the return value, and goes to the sink. -/
def lowerReturn (scope : Scope) (value : Option Expr) : LowerM Segment := do
  match value with
  | some value =>
    let source ← lowerSource scope value
    emit (.assign scope.returnValue source) value.info.location
  | none => pure ()
  let block ← newBlock (value.map (·.info.id)).toList
  terminate block (.jump Draft.sink)
  return .single block

mutual

/-- Lowers a statement. `exit` is the block after the innermost loop around it: the top of the stack of exits that a loop puts its
own on for the time of its body. Handed down to the body, the top is all that is needed. -/
def lowerStmt (scope : Scope) : Stmt → Option BlockId → LowerM Segment
  | .block _ [], _ => return .single (← newBlock [])
  | .block _ (statement :: rest), exit => do
    let segment ← lowerStmt scope statement exit
    lowerStmts scope rest exit segment
  | .branch _ condition positive negative, exit => do
    let (test, value) ← lowerTest scope condition
    let after ← newBlock []
    let positive ← lowerStmt scope positive exit
    connect positive.last after
    let negative ← lowerElse scope negative exit after
    terminate test (.branch value positive.first negative)
    return ⟨test, after⟩
  | .whileLoop _ condition body, _ => do
    let (test, value) ← lowerTest scope condition
    let exit ← newBlock []
    let body ← lowerStmt scope body (some exit)
    connect body.last test
    terminate test (.branch value body.first exit)
    return ⟨test, exit⟩
  | .doLoop _ body condition negated, _ => do
    let exit ← newBlock []
    let body ← lowerStmt scope body (some exit)
    let (test, value) ← lowerTest scope condition
    connect body.last test
    terminate test (if negated then .branch value exit body.first else .branch value body.first exit)
    return ⟨body.first, exit⟩
  | .breakLoop location, exit => lowerBreak exit location
  | .returnValue _ value, _ => lowerReturn scope value
  | .expression _ value, _ => do
    let _ ← lowerExpr scope value false
    return .single (← newBlock [value.info.id])

/-- Lowers statements that follow a segment. -/
def lowerStmts (scope : Scope) : List Stmt → Option BlockId → Segment → LowerM Segment
  | [], _, segment => return segment
  | statement :: rest, exit, segment => do
    let next ← lowerStmt scope statement exit
    connect segment.last next.first
    lowerStmts scope rest exit ⟨segment.first, next.last⟩

/-- Lowers the negative side of a branch, and yields the block where it starts. Without one, the branch goes on `after`. -/
def lowerElse (scope : Scope) : Option Stmt → Option BlockId → BlockId → LowerM BlockId
  | none, _, after => return after
  | some negative, exit, after => do
    let negative ← lowerStmt scope negative exit
    connect negative.last after
    return negative.first

end

/-- Closes a block. What is still open leaves the body. -/
def DraftBlock.close (block : DraftBlock) : Block :=
  ⟨block.statements, block.terminator.getD (.jump Draft.sink), block.expressions⟩

/-- The values of the variables of one kind, starting with the value `start`, and the values that name them. -/
def declare (start : ValueId) (declared : List Source.Variable) : Table Value :=
  declared.zipIdx start |>.map fun (decl, id) => ⟨id, some decl.symbol, decl.ty⟩

/-- The values that a function declares: the return value, then the parameters, then the locals. -/
def declaredValues (returnType : TypeId) (declared : List Source.Variable) : Table Value :=
  ⟨0, none, returnType⟩ :: declare 1 declared

/-- What the expressions of a function can refer to. -/
def scopeOf (name : String) (declared : List Source.Variable) : Scope where
  functionName := name
  bindings := (declared.zipIdx 1 |>.map fun (decl, id) => (decl.id, id)).reverse
  returnValue := 0

/-- The draft in which the lowering of a body starts: the declared values, and the sink. -/
def startDraft (values : Table Value) (literals : Table Literal) (diagnostics : Diagnostics) : Draft where
  values := values
  temporaries := []
  literals := literals
  diagnostics := diagnostics
  code := []
  blocks := [⟨[], [], some .sink⟩]

/-- Lowers a statement and leaves the body after it. The result is the block where the statement starts. -/
def lowerToSink (scope : Scope) (body : Stmt) : LowerM BlockId := do
  let segment ← lowerStmt scope body none
  connect segment.last Draft.sink
  return segment.first

/-- The graph that the body of a function becomes, before blocks that never run are dropped, and the draft it was taken
from. -/
def draftBody (name : String) (returnType : TypeId) (parameters locals : List Source.Variable) (body : Stmt)
    (literals : Table Literal) (diagnostics : Diagnostics) : Body × Draft :=
  let declared := parameters ++ locals
  let start := startDraft (declaredValues returnType declared) literals diagnostics
  let (entry, draft) := (lowerToSink (scopeOf name declared) body).run start
  let graph : Body :=
    { returnValue := 0
      parameters := List.range' 1 parameters.length
      locals := List.range' (1 + parameters.length) locals.length
      temporaries := draft.temporaries
      values := draft.values
      blocks := draft.blocks.map DraftBlock.close
      entry := entry
      sink := Draft.sink }
  (graph, draft)

end TagAsm.Lower
