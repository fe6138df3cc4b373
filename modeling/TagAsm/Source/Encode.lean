import TagAsm.Json.Basic
import TagAsm.Source.Basic

/-!
# Source programs as JSON

The JSON document of a source program. Every record is written as an object with all of its fields, in the order in which
they are declared.
-/

namespace TagAsm

open Json (natural nullable list record tagged)

/-! ## Names and types -/

/-- A position, with null for a missing file. -/
def Location.toJson (location : Location) : Json :=
  record [("file", nullable natural location.file), ("line", natural location.line.toNat),
    ("column", natural location.column.toNat)]

/-- A name with its position. -/
def Symbol.toJson (symbol : Symbol) : Json :=
  record [("name", .text symbol.name), ("location", symbol.location.toJson)]

/-- A path, or the name of what exists in memory only. -/
def Origin.toJson : Origin → Json
  | .memory => .text "Memory"
  | .file path => tagged "File" (.text path)

/-- A file, of which only the origin is known. -/
def SourceFile.toJson (file : SourceFile) : Json := record [("origin", file.origin.toJson)]

/-- A bare name, or an object whose one key names the kind. -/
def TypeKind.toJson : TypeKind → Json
  | .void => .text "Void"
  | .dynamic => .text "Dynamic"
  | .primitive kind => tagged "Primitive" (.text kind.name)
  | .array element => tagged "Array" (natural element)
  | .function parameters returnType =>
    tagged "Function" (record [("parameters", list natural parameters), ("return_type", natural returnType)])
  | .classType classId arguments =>
    tagged "Class" (record [("class", natural classId), ("arguments", list natural arguments)])

def TypeTable.toJson (table : TypeTable) : Json := record [("types", list TypeKind.toJson table.types)]

/-- An object whose one key names the type of the literal. -/
def LiteralValue.toJson : LiteralValue → Json
  | .bool value => tagged "Bool" (.bool value)
  | .byte value => tagged "Byte" (natural value.toNat)
  | .int value => tagged "Int" (.integer value.toInt)
  | .uint value => tagged "UInt" (natural value.toNat)
  | .long value => tagged "Long" (.integer value.toInt)
  | .ulong value => tagged "ULong" (natural value.toNat)
  | .char value => tagged "Char" (.text (String.singleton value))
  | .string value => tagged "String" (.text value)

namespace Source

/-! ## Operators -/

namespace UnaryOperator

def all : List UnaryOperator := [.plus, .negate, .not, .bitNot]

/-- The name of an operator in documents. -/
def name : UnaryOperator → String
  | .plus => "Plus"
  | .negate => "Negate"
  | .not => "Not"
  | .bitNot => "BitNot"

end UnaryOperator

namespace BinaryOperator

def all : List BinaryOperator :=
  [.logicalOr, .logicalAnd, .bitOr, .bitXor, .bitAnd, .equal, .notEqual, .less, .lessEqual, .greater, .greaterEqual,
    .shiftLeft, .shiftRight, .add, .subtract, .multiply, .divide, .remainder]

/-- The name of an operator in documents. -/
def name : BinaryOperator → String
  | .logicalOr => "LogicalOr"
  | .logicalAnd => "LogicalAnd"
  | .bitOr => "BitOr"
  | .bitXor => "BitXor"
  | .bitAnd => "BitAnd"
  | .equal => "Equal"
  | .notEqual => "NotEqual"
  | .less => "Less"
  | .lessEqual => "LessEqual"
  | .greater => "Greater"
  | .greaterEqual => "GreaterEqual"
  | .shiftLeft => "ShiftLeft"
  | .shiftRight => "ShiftRight"
  | .add => "Add"
  | .subtract => "Subtract"
  | .multiply => "Multiply"
  | .divide => "Divide"
  | .remainder => "Remainder"

end BinaryOperator

namespace StepOperator

/-- Both directions of counting. -/
def all : List StepOperator := [.increment, .decrement]

/-- The name of an operator in documents. -/
def name : StepOperator → String
  | .increment => "Increment"
  | .decrement => "Decrement"

end StepOperator

namespace Fixity

def all : List Fixity := [.before, .after]

/-- The name of a fixity in documents. -/
def name : Fixity → String
  | .before => "Prefix"
  | .after => "Postfix"

end Fixity

namespace Linkage

def all : List Linkage := [.internal, .foreign]

/-- The name of a linkage in documents. -/
def name : Linkage → String
  | .internal => "Internal"
  | .foreign => "Foreign"

end Linkage

/-! ## Expressions and statements -/

/-- An expression with what every expression carries. -/
def ExprInfo.toJson (info : ExprInfo) (kind : Json) : Json :=
  record [("id", natural info.id), ("ty", natural info.ty), ("location", info.location.toJson), ("kind", kind)]

mutual

def Expr.toJson : Expr → Json
  | .literal info value => info.toJson (tagged "Literal" value.toJson)
  | .variableRef info id => info.toJson (tagged "Variable" (natural id))
  | .functionRef info id => info.toJson (tagged "Function" (natural id))
  | .unary info operator operand =>
    info.toJson (tagged "Unary" (record [("operator", .text operator.name), ("operand", operand.toJson)]))
  | .binary info operator lhs rhs =>
    info.toJson (tagged "Binary"
      (record [("operator", .text operator.name), ("lhs", lhs.toJson), ("rhs", rhs.toJson)]))
  | .count info operator fixity target =>
    info.toJson (tagged "IncDec"
      (record [("operator", .text operator.name), ("fixity", .text fixity.name), ("target", target.toJson)]))
  | .assign info target value =>
    info.toJson (tagged "Assign" (record [("target", target.toJson), ("value", value.toJson)]))
  | .call info callee arguments =>
    info.toJson (tagged "Call" (record [("callee", callee.toJson), ("arguments", .array (exprsToJson arguments))]))
  | .index info object position =>
    info.toJson (tagged "Index" (record [("object", object.toJson), ("index", position.toJson)]))
  | .member info object key =>
    info.toJson (tagged "Member" (record [("object", object.toJson), ("key", key.toJson)]))
  | .cast info value target =>
    info.toJson (tagged "Cast" (record [("value", value.toJson), ("target", natural target)]))
  | .make info target arguments =>
    info.toJson (tagged "Make" (record [("target", natural target), ("arguments", .array (exprsToJson arguments))]))
  | .print info arguments => info.toJson (tagged "Print" (.array (exprsToJson arguments)))
  | .typeOf info value => info.toJson (tagged "TypeOf" value.toJson)

def exprsToJson : List Expr → List Json
  | [] => []
  | first :: rest => first.toJson :: exprsToJson rest

end

/-- A statement with its position. -/
def stmtToJson (location : Location) (kind : Json) : Json := record [("kind", kind), ("location", location.toJson)]

mutual

def Stmt.toJson : Stmt → Json
  | .block location statements => stmtToJson location (tagged "Block" (.array (stmtsToJson statements)))
  | .branch location condition positive negative =>
    stmtToJson location (tagged "If"
      (record [("condition", condition.toJson), ("positive", positive.toJson), ("negative", optionalStmtToJson negative)]))
  | .whileLoop location condition body =>
    stmtToJson location (tagged "While" (record [("condition", condition.toJson), ("body", body.toJson)]))
  | .doLoop location body condition negated =>
    stmtToJson location (tagged "Do"
      (record [("body", body.toJson), ("condition", condition.toJson), ("negated", .bool negated)]))
  | .breakLoop location => stmtToJson location (.text "Break")
  | .returnValue location value => stmtToJson location (tagged "Return" (nullable Expr.toJson value))
  | .expression location value => stmtToJson location (tagged "Expression" value.toJson)

def optionalStmtToJson : Option Stmt → Json
  | some statement => statement.toJson
  | none => .null

def stmtsToJson : List Stmt → List Json
  | [] => []
  | first :: rest => first.toJson :: stmtsToJson rest

end

/-! ## Declarations -/

/-- A variable with all of its fields. -/
def Variable.toJson (decl : Variable) : Json :=
  record [("id", natural decl.id), ("symbol", decl.symbol.toJson), ("ty", natural decl.ty)]

/-- The bare name of a declaration, or an object whose one key names the kind. -/
def FunctionKind.toJson : FunctionKind → Json
  | .defined parameters locals body =>
    tagged "Defined"
      (record [("parameters", list Variable.toJson parameters), ("locals", list Variable.toJson locals),
        ("body", body.toJson)])
  | .declared => .text "Declared"
  | .imported library entryPoint =>
    tagged "Imported" (record [("library", .text library), ("entry_point", nullable .text entryPoint)])

/-- A function with all of its fields. -/
def Function.toJson (function : Function) : Json :=
  record [("symbol", function.symbol.toJson), ("ty", natural function.ty), ("linkage", .text function.linkage.name),
    ("is_method", .bool function.isMethod), ("kind", function.kind.toJson)]

/-- A class with all of its fields. -/
def ClassDecl.toJson (decl : ClassDecl) : Json :=
  record [("symbol", decl.symbol.toJson), ("ty", natural decl.ty), ("parent", nullable natural decl.parent),
    ("fields", list Variable.toJson decl.fields), ("methods", list natural decl.methods)]

def Program.toJson (program : Program) : Json :=
  record [("files", list SourceFile.toJson program.files), ("types", program.types.toJson),
    ("functions", list Function.toJson program.functions), ("classes", list ClassDecl.toJson program.classes),
    ("entry", nullable natural program.entry)]

end Source

end TagAsm
