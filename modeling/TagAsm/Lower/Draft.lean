import TagAsm.Diagnostic
import TagAsm.Flow.Graph

/-!
# Drafts of bodies

The state in which a function body is lowered. Values, literals, diagnostics and blocks are only ever added. An expression
adds statements to the code at hand; when all that a block evaluates has been added, the code at hand becomes the contents of
a new block, and from then on only the block's terminator can change. A block without a terminator is open: it waits for
whoever comes next. The first block of every draft is the sink.
-/

namespace TagAsm.Lower

open TagAsm.Flow

/-- A block that may still be open. -/
structure DraftBlock where
  statements : List Statement
  expressions : List Source.ExprId
  terminator : Option Terminator
  deriving DecidableEq, Repr

/-- A body under construction. The literals and the diagnostics are those of the whole program so far. -/
structure Draft where
  values : Table Value
  temporaries : List ValueId
  literals : Table Literal
  diagnostics : Diagnostics
  /-- The code at hand: statements that are in no block yet. -/
  code : List Statement
  blocks : Table DraftBlock
  deriving DecidableEq, Repr

/-- Lowering reads the source and adds to a draft. -/
abbrev LowerM := StateM Draft

/-- What a function's expressions can refer to. -/
structure Scope where
  functionName : String
  /-- The values of the function's variables, the latest declaration first. -/
  bindings : List (Source.VariableId × ValueId)
  returnValue : ValueId
  deriving DecidableEq, Repr

namespace Draft

/-- The block that leaves the body. -/
def sink : BlockId := 0

/-- Adds a value that the source does not name. -/
def addTemporary (draft : Draft) (ty : TypeId) : Draft :=
  { draft with
    values := draft.values.push ⟨draft.values.nextId, none, ty⟩
    temporaries := draft.temporaries ++ [draft.values.nextId] }

/-- Adds a literal to the pool. Equal literals are not shared. -/
def addLiteral (draft : Draft) (ty : TypeId) (value : LiteralValue) : Draft :=
  { draft with literals := draft.literals.push ⟨draft.literals.nextId, ty, value⟩ }

/-- Adds a statement to the code at hand. -/
def addStatement (draft : Draft) (statement : Statement) : Draft :=
  { draft with code := draft.code ++ [statement] }

def addError (draft : Draft) (kind : DiagnosticKind) (location : Location) (message : String) : Draft :=
  { draft with diagnostics := draft.diagnostics ++ [.error .lowering kind location message] }

/-- Makes the code at hand an open block that evaluates the given source expressions. -/
def addBlock (draft : Draft) (expressions : List Source.ExprId) : Draft :=
  { draft with blocks := draft.blocks.push ⟨draft.code, expressions, none⟩, code := [] }

/-- Sets the terminator of a block. -/
def setTerminator (draft : Draft) (id : BlockId) (terminator : Terminator) : Draft :=
  { draft with blocks := draft.blocks.modify id fun block => { block with terminator := some terminator } }

/-- Lets a block go on with `target` if it is open. -/
def connectBlocks (draft : Draft) (id target : BlockId) : Draft :=
  { draft with
    blocks := draft.blocks.modify id fun block =>
      { block with terminator := block.terminator <|> some (.jump target) } }

end Draft

/-- A new value that the source does not name. -/
def temporary (ty : TypeId) : LowerM ValueId := modifyGet fun draft => (draft.values.nextId, draft.addTemporary ty)

/-- A new literal. -/
def literal (ty : TypeId) (value : LiteralValue) : LowerM LiteralId :=
  modifyGet fun draft => (draft.literals.nextId, draft.addLiteral ty value)

/-- Adds a statement to the code at hand. -/
def emit (action : Action) (location : Location) : LowerM Unit := modify (·.addStatement ⟨action, location⟩)

/-- Reports an error. -/
def error (kind : DiagnosticKind) (location : Location) (message : String) : LowerM Unit :=
  modify (·.addError kind location message)

/-- Makes the code at hand a new open block. -/
def newBlock (expressions : List Source.ExprId) : LowerM BlockId :=
  modifyGet fun draft => (draft.blocks.nextId, draft.addBlock expressions)

/-- Sets the terminator of a block. -/
def terminate (id : BlockId) (terminator : Terminator) : LowerM Unit := modify (·.setTerminator id terminator)

/-- Lets a block go on with `target` if it is open. -/
def connect (id target : BlockId) : LowerM Unit := modify (·.connectBlocks id target)

end TagAsm.Lower
