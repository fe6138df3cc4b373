import TagAsm.Literal
import TagAsm.Location

/-!
# Source programs

A program as it enters the compiler: functions and classes whose names are resolved and whose expressions carry their types.
Nothing here is checked. An id may name nothing, and a program that holds such an id can still be compiled as long as
nobody looks it up.
-/

namespace TagAsm.Source

/-- The position of a function among the functions of a program. -/
abbrev FunctionId := Nat

/-- The number of a variable within its function. -/
abbrev VariableId := Nat

/-- The number of an expression within its program. -/
abbrev ExprId := Nat

/-- Operators with one operand. -/
inductive UnaryOperator where
  | plus
  | negate
  | not
  | bitNot
  deriving DecidableEq, Repr

/-- Operators with two operands. -/
inductive BinaryOperator where
  | logicalOr
  | logicalAnd
  | bitOr
  | bitXor
  | bitAnd
  | equal
  | notEqual
  | less
  | lessEqual
  | greater
  | greaterEqual
  | shiftLeft
  | shiftRight
  | add
  | subtract
  | multiply
  | divide
  | remainder
  deriving DecidableEq, Repr

/-- Whether a variable is counted up or down. -/
inductive StepOperator where
  | increment
  | decrement
  deriving DecidableEq, Repr

/-- Whether counting yields the value after it or before it. -/
inductive Fixity where
  /-- `++x`: the new value. -/
  | before
  /-- `x++`: the old value. -/
  | after
  deriving DecidableEq, Repr

/-- What every expression carries. -/
structure ExprInfo where
  id : ExprId
  ty : TypeId
  location : Location
  deriving DecidableEq, Repr

/-- An expression. Each carries its number, type and position. -/
inductive Expr where
  | literal (info : ExprInfo) (value : LiteralValue)
  | variableRef (info : ExprInfo) (id : VariableId)
  | functionRef (info : ExprInfo) (id : FunctionId)
  | unary (info : ExprInfo) (operator : UnaryOperator) (operand : Expr)
  | binary (info : ExprInfo) (operator : BinaryOperator) (lhs rhs : Expr)
  | count (info : ExprInfo) (operator : StepOperator) (fixity : Fixity) (target : Expr)
  | assign (info : ExprInfo) (target value : Expr)
  | call (info : ExprInfo) (callee : Expr) (arguments : List Expr)
  | index (info : ExprInfo) (object position : Expr)
  | member (info : ExprInfo) (object key : Expr)
  | cast (info : ExprInfo) (value : Expr) (target : TypeId)
  | make (info : ExprInfo) (target : TypeId) (arguments : List Expr)
  | print (info : ExprInfo) (arguments : List Expr)
  | typeOf (info : ExprInfo) (value : Expr)
  deriving Repr

namespace Expr

/-- Id, type and position of an expression. -/
def info : Expr → ExprInfo
  | .literal info _ | .variableRef info _ | .functionRef info _ | .unary info _ _ | .binary info _ _ _
  | .count info _ _ _ | .assign info _ _ | .call info _ _ | .index info _ _ | .member info _ _ | .cast info _ _
  | .make info _ _ | .print info _ | .typeOf info _ => info

/-- Whether an expression names a place that can be assigned to. -/
def isPlace : Expr → Bool
  | .variableRef .. | .index .. | .member .. => true
  | _ => false

end Expr

/-- A statement. Each carries its position. -/
inductive Stmt where
  | block (location : Location) (statements : List Stmt)
  | branch (location : Location) (condition : Expr) (positive : Stmt) (negative : Option Stmt)
  | whileLoop (location : Location) (condition : Expr) (body : Stmt)
  /-- Runs the body and repeats it while the condition holds, or while it does not hold if `negated`. -/
  | doLoop (location : Location) (body : Stmt) (condition : Expr) (negated : Bool)
  | breakLoop (location : Location)
  | returnValue (location : Location) (value : Option Expr)
  | expression (location : Location) (value : Expr)
  deriving Repr

/-- The position of a statement. -/
def Stmt.location : Stmt → Location
  | .block location _ | .branch location _ _ _ | .whileLoop location _ _ | .doLoop location _ _ _ | .breakLoop location
  | .returnValue location _ | .expression location _ => location

/-- A parameter or local of a function, or a field of a class. -/
structure Variable where
  id : VariableId
  symbol : Symbol
  ty : TypeId
  deriving DecidableEq, Repr

/-- What a function consists of: a body, nothing but its name, or a place in a native library. -/
inductive FunctionKind where
  | defined (parameters locals : List Variable) (body : Stmt)
  | declared
  | imported (library : String) (entryPoint : Option String)
  deriving Repr

/-- Whose calling convention a function follows. -/
inductive Linkage where
  | internal
  | foreign
  deriving DecidableEq, Repr

/-- A function or method. -/
structure Function where
  symbol : Symbol
  ty : TypeId
  linkage : Linkage
  isMethod : Bool
  kind : FunctionKind
  deriving Repr

/-- A class as it was declared, without what it inherits. -/
structure ClassDecl where
  symbol : Symbol
  ty : TypeId
  parent : Option ClassId
  fields : List Variable
  methods : List FunctionId
  deriving DecidableEq, Repr

/-- A whole program. -/
structure Program where
  files : List SourceFile
  types : TypeTable
  functions : Table Function
  classes : Table ClassDecl
  entry : Option FunctionId
  deriving Repr

namespace Program

/-- The function with this id. -/
def function (program : Program) (id : FunctionId) : Except Fault Function := program.functions.fetch .function id

/-- The class with this id. -/
def classDecl (program : Program) (id : ClassId) : Except Fault ClassDecl := program.classes.fetch .classDecl id

/-- The name of a type, with classes by their declared names. -/
def typeName (program : Program) (id : TypeId) : Except Fault String :=
  program.types.name (fun classId => return (← program.classDecl classId).symbol.name) id

end Program

end TagAsm.Source
