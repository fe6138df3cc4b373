import TagAsm.Table

/-!
# Types

Types are rows of a table and refer to each other by id. Interning a type looks for the first row that equals it and adds a
row only if there is none, so two interned types are equal exactly when their ids are.
-/

namespace TagAsm

/-- The position of a type in its table. -/
abbrev TypeId := Nat

/-- The position of a class among the classes of a program. -/
abbrev ClassId := Nat

/-- The built-in types of values. -/
inductive Primitive where
  | bool
  | byte
  | int
  | uint
  | long
  | ulong
  | char
  | string
  deriving DecidableEq, Repr

namespace Primitive

/-- Every primitive, in the order of their tags. -/
def all : List Primitive := [.bool, .byte, .int, .uint, .long, .ulong, .char, .string]

def name : Primitive → String
  | .bool => "bool"
  | .byte => "byte"
  | .int => "int"
  | .uint => "uint"
  | .long => "long"
  | .ulong => "ulong"
  | .char => "char"
  | .string => "string"

/-- The primitive with this name, letter by letter. -/
def ofName? (text : String) : Option Primitive := all.find? fun kind => kind.name = text

/-- The number by which values carry their primitive type at run time. -/
def tag : Primitive → Int
  | .bool => 1
  | .byte => 2
  | .int => 3
  | .uint => 4
  | .long => 5
  | .ulong => 6
  | .char => 7
  | .string => 8

/-- Whether a value of this type fits one machine word: all do but strings. -/
def isScalar (kind : Primitive) : Bool := kind ≠ .string

end Primitive

/-- One row of a type table. -/
inductive TypeKind where
  | void
  | dynamic
  | primitive (kind : Primitive)
  | array (element : TypeId)
  | function (parameters : List TypeId) (returnType : TypeId)
  | classType (classId : ClassId) (arguments : List TypeId)
  deriving DecidableEq, Repr

/-- The types of a program. -/
structure TypeTable where
  types : Table TypeKind
  deriving DecidableEq, Repr

namespace TypeTable

def empty : TypeTable := ⟨[]⟩

/-- The id of a type, and the table that surely holds it: the first row that equals the type, or a new row. -/
def intern (table : TypeTable) (kind : TypeKind) : TypeId × TypeTable :=
  match table.types.findIdx? (· = kind) with
  | some id => (id, table)
  | none => (table.types.nextId, ⟨table.types.push kind⟩)

/-- The type with this id. -/
def get (table : TypeTable) (id : TypeId) : Except Fault TypeKind := table.types.fetch .typeKind id

/-- The primitive that this type is, if it is one. -/
def asPrimitive (table : TypeTable) (id : TypeId) : Except Fault (Option Primitive) := do
  match ← table.get id with
  | .primitive kind => return some kind
  | _ => return none

/-- Whether this is the type without values. -/
def isVoid (table : TypeTable) (id : TypeId) : Except Fault Bool := do
  return (← table.get id) = .void

/-- The parameter types and the return type of a function type. -/
def signature (table : TypeTable) (id : TypeId) : Except Fault (Option (List TypeId × TypeId)) := do
  match ← table.get id with
  | .function parameters returnType => return some (parameters, returnType)
  | _ => return none

/-- Names a type whose nesting is at most `depth`, with `className` naming the classes. -/
def nameWithin (table : TypeTable) (className : ClassId → Except Fault String) : Nat → TypeId → Except Fault String
  | 0, id => .error (.endlessType id)
  | depth + 1, id => do
    match ← table.get id with
    | .void => return "void"
    | .dynamic => return "dynamic"
    | .primitive kind => return kind.name
    | .array element => return (← nameWithin table className depth element) ++ "[]"
    | .function parameters returnType =>
      let parameters ← parameters.mapM (nameWithin table className depth)
      let returnType ← nameWithin table className depth returnType
      return "function(" ++ ", ".intercalate parameters ++ "): " ++ returnType
    | .classType classId arguments =>
      let name ← className classId
      if arguments.isEmpty then
        return name
      let arguments ← arguments.mapM (nameWithin table className depth)
      return name ++ "<" ++ ", ".intercalate arguments ++ ">"

/-- The name of a type. A type nested deeper than the table has rows contains itself. -/
def name (table : TypeTable) (className : ClassId → Except Fault String) (id : TypeId) : Except Fault String :=
  table.nameWithin className (table.types.length + 1) id

end TypeTable

end TagAsm
