import TagAsm.Json.Parse
import TagAsm.Json.Shape
import TagAsm.Source.Encode

/-!
# Source programs from JSON

Decoders for the documents that `Source.Program.toJson` writes. They also accept records written as arrays, members that
are no fields, and optional fields that are left out. Each decoder takes the number of levels that its value may still be
nested.
-/

namespace TagAsm

open Json (asId asBool asString asChar asInteger asOption asList asFields asRecord asAlternative asChoice)

/-! ## Names and types -/

/-- A position, whose file may be left out. -/
def Location.ofJson? : Nat → Json → Option Location
  | _ + 1, json => do
    let [file, line, column] ← asFields [("file", .optional), ("line", .required), ("column", .required)] json | none
    return ⟨← asOption asId file, .ofNat (← asId line), .ofNat (← asId column)⟩
  | 0, _ => none

/-- A name with its position. -/
def Symbol.ofJson? : Nat → Json → Option Symbol
  | depth + 1, json => do
    let [name, location] ← asRecord ["name", "location"] json | none
    return ⟨← asString name, ← Location.ofJson? depth location⟩
  | 0, _ => none

/-- A path, or the name of what exists in memory only. -/
def Origin.ofJson? (depth : Nat) (json : Json) : Option Origin :=
  match depth, asAlternative json with
  | _, some (.bare "Memory") | _ + 1, some (.holding "Memory" .null) => some .memory
  | _ + 1, some (.holding "File" path) => (asString path).map .file
  | _, _ => none

/-- A file, of which only the origin is known. -/
def SourceFile.ofJson? : Nat → Json → Option SourceFile
  | depth + 1, json => do
    let [origin] ← asRecord ["origin"] json | none
    return ⟨← Origin.ofJson? depth origin⟩
  | 0, _ => none

/-- A list of ids. -/
def idsOfJson? : Nat → Json → Option (List Nat) := asList fun _ => asId

/-- What a type holds, if it holds anything. -/
def TypeKind.ofPayload? (depth : Nat) (name : String) (payload : Json) : Option TypeKind :=
  match name, depth with
  | "Primitive", _ => (asChoice Primitive.name Primitive.all depth payload).map .primitive
  | "Array", _ => (asId payload).map .array
  | "Function", depth + 1 => do
    let [parameters, returnType] ← asRecord ["parameters", "return_type"] payload | none
    return .function (← idsOfJson? depth parameters) (← asId returnType)
  | "Class", depth + 1 => do
    let [classId, arguments] ← asRecord ["class", "arguments"] payload | none
    return .classType (← asId classId) (← idsOfJson? depth arguments)
  | _, _ => none

/-- A type: a bare name, or an object whose one key names the kind. -/
def TypeKind.ofJson? (depth : Nat) (json : Json) : Option TypeKind :=
  match depth, asAlternative json with
  | _, some (.bare "Void") | _ + 1, some (.holding "Void" .null) => some .void
  | _, some (.bare "Dynamic") | _ + 1, some (.holding "Dynamic" .null) => some .dynamic
  | depth + 1, some (.holding name payload) => TypeKind.ofPayload? depth name payload
  | _, _ => none

def TypeTable.ofJson? : Nat → Json → Option TypeTable
  | depth + 1, json => do
    let [types] ← asRecord ["types"] json | none
    return ⟨← asList TypeKind.ofJson? depth types⟩
  | 0, _ => none

/-- A literal in the range of its type. -/
def LiteralValue.ofJson? (depth : Nat) (json : Json) : Option LiteralValue :=
  match depth, asAlternative json with
  | _ + 1, some (.holding name payload) =>
    match name with
    | "Bool" => (asBool payload).map .bool
    | "Byte" => (asInteger 0 255 payload).map fun value => .byte (.ofNat value.toNat)
    | "Int" => (asInteger (-2147483648) 2147483647 payload).map fun value => .int (.ofInt value)
    | "UInt" => (asInteger 0 4294967295 payload).map fun value => .uint (.ofNat value.toNat)
    | "Long" => (asInteger (-9223372036854775808) 9223372036854775807 payload).map fun value => .long (.ofInt value)
    | "ULong" => (asInteger 0 18446744073709551615 payload).map fun value => .ulong (.ofNat value.toNat)
    | "Char" => (asChar payload).map .char
    | "String" => (asString payload).map .string
    | _ => none
  | _, _ => none

namespace Source

/-! ## Expressions and statements -/

/-- What every expression carries. -/
def ExprInfo.ofFields? (depth : Nat) (id ty location : Json) : Option ExprInfo := do
  return ⟨← asId id, ← asId ty, ← Location.ofJson? depth location⟩

mutual

def Expr.ofJson? : Nat → Json → Option Expr
  | depth + 1, json => do
    let [id, ty, location, kind] ← asRecord ["id", "ty", "location", "kind"] json | none
    exprOfKind? depth (← ExprInfo.ofFields? depth id ty location) kind
  | 0, _ => none

/-- An expression whose kind is a choice of one alternative. -/
def exprOfKind? : Nat → ExprInfo → Json → Option Expr
  | depth + 1, info, json =>
    match asAlternative json with
    | some (.holding name payload) =>
      match name with
      | "Literal" => (LiteralValue.ofJson? depth payload).map (.literal info)
      | "Variable" => (asId payload).map (.variableRef info)
      | "Function" => (asId payload).map (.functionRef info)
      | "Print" => (exprsOfJson? depth payload).map (.print info)
      | "TypeOf" => (Expr.ofJson? depth payload).map (.typeOf info)
      | _ => exprOfFields? depth info name payload
    | _ => none
  | 0, _, _ => none

/-- An expression whose kind is a record. -/
def exprOfFields? : Nat → ExprInfo → String → Json → Option Expr
  | depth + 1, info, name, json =>
    match name with
    | "Unary" => do
      let [operator, operand] ← asRecord ["operator", "operand"] json | none
      return .unary info (← asChoice UnaryOperator.name UnaryOperator.all depth operator) (← Expr.ofJson? depth operand)
    | "Binary" => do
      let [operator, lhs, rhs] ← asRecord ["operator", "lhs", "rhs"] json | none
      return .binary info (← asChoice BinaryOperator.name BinaryOperator.all depth operator)
        (← Expr.ofJson? depth lhs) (← Expr.ofJson? depth rhs)
    | "IncDec" => do
      let [operator, fixity, target] ← asRecord ["operator", "fixity", "target"] json | none
      return .count info (← asChoice StepOperator.name StepOperator.all depth operator)
        (← asChoice Fixity.name Fixity.all depth fixity) (← Expr.ofJson? depth target)
    | "Assign" => do
      let [target, value] ← asRecord ["target", "value"] json | none
      return .assign info (← Expr.ofJson? depth target) (← Expr.ofJson? depth value)
    | "Call" => do
      let [callee, arguments] ← asRecord ["callee", "arguments"] json | none
      return .call info (← Expr.ofJson? depth callee) (← exprsOfJson? depth arguments)
    | "Index" => do
      let [object, position] ← asRecord ["object", "index"] json | none
      return .index info (← Expr.ofJson? depth object) (← Expr.ofJson? depth position)
    | "Member" => do
      let [object, key] ← asRecord ["object", "key"] json | none
      return .member info (← Expr.ofJson? depth object) (← Expr.ofJson? depth key)
    | "Cast" => do
      let [value, target] ← asRecord ["value", "target"] json | none
      return .cast info (← Expr.ofJson? depth value) (← asId target)
    | "Make" => do
      let [target, arguments] ← asRecord ["target", "arguments"] json | none
      return .make info (← asId target) (← exprsOfJson? depth arguments)
    | _ => none
  | 0, _, _, _ => none

def exprsOfJson? : Nat → Json → Option (List Expr)
  | depth + 1, .array items => items.mapM (Expr.ofJson? depth)
  | _, _ => none

end

/-- The fields of a conditional statement, whose second branch may be left out. -/
def branchFields : List (String × Json.Presence) :=
  [("condition", .required), ("positive", .required), ("negative", .optional)]

mutual

def Stmt.ofJson? : Nat → Json → Option Stmt
  | depth + 1, json => do
    let [kind, location] ← asRecord ["kind", "location"] json | none
    stmtOfKind? depth (← Location.ofJson? depth location) kind
  | 0, _ => none

/-- A statement whose kind is a choice of one alternative. -/
def stmtOfKind? : Nat → Location → Json → Option Stmt
  | depth + 1, location, json =>
    match asAlternative json with
    | some (.bare "Break") | some (.holding "Break" .null) => some (.breakLoop location)
    | some (.holding name payload) =>
      match name with
      | "Block" => (stmtsOfJson? depth payload).map (.block location)
      | "Return" => (asOption (Expr.ofJson? depth) payload).map (.returnValue location)
      | "Expression" => (Expr.ofJson? depth payload).map (.expression location)
      | _ => stmtOfFields? depth location name payload
    | _ => none
  | 0, location, json =>
    match asAlternative json with
    | some (.bare "Break") => some (.breakLoop location)
    | _ => none

/-- A statement whose kind is a record. -/
def stmtOfFields? : Nat → Location → String → Json → Option Stmt
  | depth + 1, location, name, json =>
    match name with
    | "If" => do
      let [condition, positive, negative] ← asFields branchFields json | none
      return .branch location (← Expr.ofJson? depth condition) (← Stmt.ofJson? depth positive)
        (← asOption (Stmt.ofJson? depth) negative)
    | "While" => do
      let [condition, body] ← asRecord ["condition", "body"] json | none
      return .whileLoop location (← Expr.ofJson? depth condition) (← Stmt.ofJson? depth body)
    | "Do" => do
      let [body, condition, negated] ← asRecord ["body", "condition", "negated"] json | none
      return .doLoop location (← Stmt.ofJson? depth body) (← Expr.ofJson? depth condition) (← asBool negated)
    | _ => none
  | 0, _, _, _ => none

def stmtsOfJson? : Nat → Json → Option (List Stmt)
  | depth + 1, .array items => items.mapM (Stmt.ofJson? depth)
  | _, _ => none

end

/-! ## Declarations -/

/-- A variable with all of its fields. -/
def Variable.ofJson? : Nat → Json → Option Variable
  | depth + 1, json => do
    let [id, symbol, ty] ← asRecord ["id", "symbol", "ty"] json | none
    return ⟨← asId id, ← Symbol.ofJson? depth symbol, ← asId ty⟩
  | 0, _ => none

/-- What a function holds beside its name and type. -/
def FunctionKind.ofFields? : Nat → String → Json → Option FunctionKind
  | depth + 1, name, json =>
    match name with
    | "Defined" => do
      let [parameters, locals, body] ← asRecord ["parameters", "locals", "body"] json | none
      return .defined (← asList Variable.ofJson? depth parameters) (← asList Variable.ofJson? depth locals)
        (← Stmt.ofJson? depth body)
    | "Imported" => do
      let [library, entryPoint] ← asFields [("library", .required), ("entry_point", .optional)] json | none
      return .imported (← asString library) (← asOption asString entryPoint)
    | _ => none
  | 0, _, _ => none

/-- A bare declaration, or an object whose one key names the kind. -/
def FunctionKind.ofJson? (depth : Nat) (json : Json) : Option FunctionKind :=
  match depth, asAlternative json with
  | _, some (.bare "Declared") | _ + 1, some (.holding "Declared" .null) => some .declared
  | depth + 1, some (.holding name payload) => FunctionKind.ofFields? depth name payload
  | _, _ => none

/-- The name of a linkage. -/
def Linkage.ofJson? : Nat → Json → Option Linkage := asChoice Linkage.name Linkage.all

/-- A function with all of its fields. -/
def Function.ofJson? : Nat → Json → Option Function
  | depth + 1, json => do
    let [symbol, ty, linkage, isMethod, kind] ← asRecord ["symbol", "ty", "linkage", "is_method", "kind"] json | none
    return ⟨← Symbol.ofJson? depth symbol, ← asId ty, ← Linkage.ofJson? depth linkage, ← asBool isMethod,
      ← FunctionKind.ofJson? depth kind⟩
  | 0, _ => none

/-- The fields of a class, of which the parent may be left out. -/
def classFields : List (String × Json.Presence) :=
  [("symbol", .required), ("ty", .required), ("parent", .optional), ("fields", .required), ("methods", .required)]

/-- A class with all of its fields, the parent apart. -/
def ClassDecl.ofJson? : Nat → Json → Option ClassDecl
  | depth + 1, json => do
    let [symbol, ty, parent, fields, methods] ← asFields classFields json | none
    return ⟨← Symbol.ofJson? depth symbol, ← asId ty, ← asOption asId parent,
      ← asList Variable.ofJson? depth fields, ← idsOfJson? depth methods⟩
  | 0, _ => none

/-- The fields of a program, of which the entry may be left out. -/
def programFields : List (String × Json.Presence) :=
  [("files", .required), ("types", .required), ("functions", .required), ("classes", .required), ("entry", .optional)]

/-- A program with all of its fields, the entry apart. -/
def Program.ofJson? : Nat → Json → Option Program
  | depth + 1, json => do
    let [files, types, functions, classes, entry] ← asFields programFields json | none
    return ⟨← asList SourceFile.ofJson? depth files, ← TypeTable.ofJson? depth types,
      ← asList Function.ofJson? depth functions, ← asList ClassDecl.ofJson? depth classes, ← asOption asId entry⟩
  | 0, _ => none

/-- The program that a document holds. -/
def Program.parse? (text : String) : Option Program := do
  Program.ofJson? Json.maxDepth (← Json.parse? text)

end Source

end TagAsm
