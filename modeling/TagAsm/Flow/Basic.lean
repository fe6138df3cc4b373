import TagAsm.Source.Basic

/-!
# Flow programs

A flow program is a source program with its structure taken apart: every expression has become a row of statements on
numbered values, and every function body a graph of blocks. A block runs its statements and then leaves through its
terminator. One block of each body is the sink, and leaving the body means going there.
-/

namespace TagAsm.Flow

/-- The position of a subroutine among the subroutines of a program. It is the id of the function it was made from. -/
abbrev SubroutineId := Nat

/-- The position of a value among the values of a body. -/
abbrev ValueId := Nat

/-- The position of a block among the blocks of a body. -/
abbrev BlockId := Nat

/-- The position of a literal in the pool of a program. -/
abbrev LiteralId := Nat

/-- What an operator statement computes. -/
inductive Operator where
  | pos
  | neg
  | not
  | bitNot
  | increment
  | decrement
  | or
  | and
  | bitOr
  | bitXor
  | bitAnd
  | equal
  | notEqual
  | less
  | lessEqual
  | shiftLeft
  | shiftRight
  | add
  | subtract
  | multiply
  | divide
  | remainder
  | index
  /-- Yields a reference to the element instead of its value. -/
  | indexRef
  /-- Copies what a reference points to. -/
  | deref
  /-- Calls a value. -/
  | call
  deriving DecidableEq, Repr

/-- The operator as listings show it. -/
def Operator.symbol : Operator → String
  | .pos => "+"
  | .neg => "-"
  | .not => "!"
  | .bitNot => "~"
  | .increment => "++"
  | .decrement => "--"
  | .or => "||"
  | .and => "&&"
  | .bitOr => "|"
  | .bitXor => "^"
  | .bitAnd => "&"
  | .equal => "=="
  | .notEqual => "!="
  | .less => "<"
  | .lessEqual => "<="
  | .shiftLeft => "<<"
  | .shiftRight => ">>"
  | .add => "+"
  | .subtract => "-"
  | .multiply => "*"
  | .divide => "/"
  | .remainder => "%"
  | .index => "index"
  | .indexRef => "index_ref"
  | .deref => "deref"
  | .call => "call"

/-- Operations that the language offers by name. -/
inductive Builtin where
  | cast
  | make
  | print
  | typeOf
  deriving DecidableEq, Repr

/-- The builtin as listings show it. -/
def Builtin.symbol : Builtin → String
  | .cast => "cast"
  | .make => "make"
  | .print => "print"
  | .typeOf => "typeof"

/-- Where the new contents of a value come from. -/
inductive AssignSource where
  | value (id : ValueId)
  | literal (id : LiteralId)
  | subroutine (id : SubroutineId)
  deriving DecidableEq, Repr

/-- What a statement does. -/
inductive Action where
  | operator (kind : Operator) (result : ValueId) (arguments : List ValueId)
  | call (result : ValueId) (callee : SubroutineId) (arguments : List ValueId)
  | member (result object : ValueId) (name : LiteralId)
  /-- Yields a reference to the member instead of its value. -/
  | memberRef (result object : ValueId) (name : LiteralId)
  | builtin (kind : Builtin) (template : Option TypeId) (result : Option ValueId) (arguments : List ValueId)
  | assign (destination : ValueId) (source : AssignSource)
  deriving DecidableEq, Repr

/-- One step of a block. -/
structure Statement where
  action : Action
  location : Location
  deriving DecidableEq, Repr

/-- Every value that a statement mentions, the one it writes first. -/
def Statement.values (statement : Statement) : List ValueId :=
  match statement.action with
  | .operator _ result arguments | .call result _ arguments => result :: arguments
  | .member result object _ | .memberRef result object _ => [result, object]
  | .builtin _ _ result arguments => result.toList ++ arguments
  | .assign destination (.value source) => [destination, source]
  | .assign destination _ => [destination]

/-- How a block is left. -/
inductive Terminator where
  /-- Goes to `positive` if the condition holds and to `negative` otherwise. -/
  | branch (condition : ValueId) (positive negative : BlockId)
  | jump (target : BlockId)
  /-- Leaves the body. -/
  | sink
  deriving DecidableEq, Repr

namespace Terminator

/-- The blocks that a terminator can go to, each once, the positive one first. -/
def successors : Terminator → List BlockId
  | .branch _ positive negative => if positive = negative then [positive] else [positive, negative]
  | .jump target => [target]
  | .sink => []

/-- The value that a terminator tests. -/
def condition? : Terminator → Option ValueId
  | .branch condition _ _ => some condition
  | .jump _ | .sink => none

/-- Sends every edge to `old` to `new` instead. -/
def retarget (old new : BlockId) : Terminator → Terminator
  | .branch condition positive negative =>
    .branch condition (if positive = old then new else positive) (if negative = old then new else negative)
  | .jump target => .jump (if target = old then new else target)
  | .sink => .sink

/-- Renames the blocks that a terminator can go to. -/
def rename (name : BlockId → Except Fault BlockId) : Terminator → Except Fault Terminator
  | .branch condition positive negative => return .branch condition (← name positive) (← name negative)
  | .jump target => return .jump (← name target)
  | .sink => return .sink

end Terminator

/-- A row of statements that is entered at the top and left at the bottom. -/
structure Block where
  statements : List Statement
  terminator : Terminator
  /-- The source expressions that the block evaluates as a whole. -/
  expressions : List Source.ExprId
  deriving DecidableEq, Repr

/-- Whether a block does nothing but go on. -/
def Block.isEmpty (block : Block) : Bool := block.statements.isEmpty && block.expressions.isEmpty

/-- A place that holds one value while its body runs. -/
structure Value where
  id : ValueId
  symbol : Option Symbol
  ty : TypeId
  deriving DecidableEq, Repr

/-- The graph of a subroutine, and the values it works on. -/
structure Body where
  returnValue : ValueId
  parameters : List ValueId
  locals : List ValueId
  temporaries : List ValueId
  values : Table Value
  blocks : Table Block
  entry : BlockId
  sink : BlockId
  deriving DecidableEq, Repr

/-- A constant of the pool. -/
structure Literal where
  id : LiteralId
  ty : TypeId
  value : LiteralValue
  deriving DecidableEq, Repr

/-- What a subroutine consists of: a graph, nothing but its name, or a place in a native library. -/
inductive SubroutineKind where
  | defined (body : Body)
  | declared
  | imported (library : String) (entryPoint : Option String)
  deriving DecidableEq, Repr

/-- A function once its body has become a graph. -/
structure Subroutine where
  symbol : Symbol
  ty : TypeId
  linkage : Source.Linkage
  /-- The type of the class that a method belongs to. -/
  owner : Option TypeId
  kind : SubroutineKind
  deriving DecidableEq, Repr

namespace Subroutine

/-- Whether a subroutine follows the native calling convention. -/
def isForeign (subroutine : Subroutine) : Bool := subroutine.linkage = .foreign

/-- The graph of a subroutine that has one. -/
def body? (subroutine : Subroutine) : Option Body :=
  match subroutine.kind with
  | .defined body => some body
  | .declared | .imported .. => none

end Subroutine

/-- A data member of a class. -/
structure Field where
  name : String
  ty : TypeId
  deriving DecidableEq, Repr

/-- A code member of a class. -/
structure Method where
  name : String
  subroutine : SubroutineId
  deriving DecidableEq, Repr

/-- A class with everything it inherits. -/
structure ClassLayout where
  symbol : Symbol
  ty : TypeId
  fields : List Field
  methods : List Method
  deriving DecidableEq, Repr

/-- A whole program: subroutines, classes, and the pool of literals that they share. -/
structure Program where
  files : List SourceFile
  types : TypeTable
  classNames : Table String
  subroutines : Table Subroutine
  /-- The subroutines with a body, methods apart. -/
  defined : List SubroutineId
  declared : List SubroutineId
  imported : List SubroutineId
  methods : List SubroutineId
  classes : List ClassLayout
  literals : Table Literal
  entry : Option SubroutineId
  deriving DecidableEq, Repr

namespace Program

/-- The name of a type. -/
def typeName (program : Program) (id : TypeId) : Except Fault String :=
  program.types.name (program.classNames.fetch .classDecl) id

/-- The layout of the class with this type. -/
def classOfType? (program : Program) (id : TypeId) : Option ClassLayout := program.classes.find? fun decl => decl.ty = id

/-- The name of a subroutine, after the name of its class if it is a method. -/
def subroutineName (program : Program) (id : SubroutineId) : Except Fault String := do
  let subroutine ← program.subroutines.fetch .subroutine id
  match subroutine.owner with
  | some owner => return (← program.typeName owner) ++ "." ++ subroutine.symbol.name
  | none => return subroutine.symbol.name

end Program

end TagAsm.Flow
