import TagAsm.Flow.Basic
import TagAsm.Source.Encode

/-!
# Flow programs as JSON

The JSON document of a flow program. It leaves out the files and the types, which are those of the source program.
-/

namespace TagAsm.Flow

open Json (natural nullable list record tagged)

namespace Operator

def all : List Operator :=
  [.pos, .neg, .not, .bitNot, .increment, .decrement, .or, .and, .bitOr, .bitXor, .bitAnd, .equal, .notEqual, .less,
    .lessEqual, .shiftLeft, .shiftRight, .add, .subtract, .multiply, .divide, .remainder, .index, .indexRef, .deref, .call]

/-- The name of an operator in documents. -/
def name : Operator → String
  | .pos => "Pos"
  | .neg => "Neg"
  | .not => "Not"
  | .bitNot => "BitNot"
  | .increment => "Increment"
  | .decrement => "Decrement"
  | .or => "Or"
  | .and => "And"
  | .bitOr => "BitOr"
  | .bitXor => "BitXor"
  | .bitAnd => "BitAnd"
  | .equal => "Equal"
  | .notEqual => "NotEqual"
  | .less => "Less"
  | .lessEqual => "LessEqual"
  | .shiftLeft => "ShiftLeft"
  | .shiftRight => "ShiftRight"
  | .add => "Add"
  | .subtract => "Subtract"
  | .multiply => "Multiply"
  | .divide => "Divide"
  | .remainder => "Remainder"
  | .index => "Index"
  | .indexRef => "IndexRef"
  | .deref => "Deref"
  | .call => "Call"

end Operator

namespace Builtin

def all : List Builtin := [.cast, .make, .print, .typeOf]

/-- The name of a builtin in documents. -/
def name : Builtin → String
  | .cast => "Cast"
  | .make => "Make"
  | .print => "Print"
  | .typeOf => "TypeOf"

end Builtin

/-- An object whose one key tells what is assigned. -/
def AssignSource.toJson : AssignSource → Json
  | .value id => tagged "Value" (natural id)
  | .literal id => tagged "Literal" (natural id)
  | .subroutine id => tagged "Subroutine" (natural id)

/-- A member of an object: the result, the object, and the literal with its name. -/
def memberToJson (result object : ValueId) (name : LiteralId) : Json :=
  record [("result", natural result), ("object", natural object), ("name", natural name)]

/-- An object whose one key names the action. -/
def Action.toJson : Action → Json
  | .operator kind result arguments =>
    tagged "Operator"
      (record [("kind", .text kind.name), ("result", natural result), ("arguments", list natural arguments)])
  | .call result callee arguments =>
    tagged "Call" (record [("result", natural result), ("callee", natural callee), ("arguments", list natural arguments)])
  | .member result object name => tagged "Member" (memberToJson result object name)
  | .memberRef result object name => tagged "MemberRef" (memberToJson result object name)
  | .builtin kind template result arguments =>
    tagged "Builtin"
      (record [("kind", .text kind.name), ("template", nullable natural template), ("result", nullable natural result),
        ("arguments", list natural arguments)])
  | .assign destination source =>
    tagged "Assign" (record [("destination", natural destination), ("source", source.toJson)])

/-- What a statement does, and its position. -/
def Statement.toJson (statement : Statement) : Json :=
  record [("kind", statement.action.toJson), ("location", statement.location.toJson)]

/-- An object whose one key names the terminator, or the bare name of the sink. -/
def Terminator.toJson : Terminator → Json
  | .branch condition positive negative =>
    tagged "Conditional"
      (record [("condition", natural condition), ("positive", natural positive), ("negative", natural negative)])
  | .jump target => tagged "Unconditional" (natural target)
  | .sink => .text "Sink"

/-- A block with all of its fields. -/
def Block.toJson (block : Block) : Json :=
  record [("statements", list Statement.toJson block.statements), ("terminator", block.terminator.toJson),
    ("expressions", list natural block.expressions)]

/-- A value, with null for a missing name. -/
def Value.toJson (value : Value) : Json :=
  record [("id", natural value.id), ("symbol", nullable Symbol.toJson value.symbol), ("ty", natural value.ty)]

/-- The graph of a body without its values. -/
def Body.graphToJson (body : Body) : Json :=
  record [("blocks", list Block.toJson body.blocks), ("entry", natural body.entry), ("sink", natural body.sink)]

/-- A body with all of its fields. -/
def Body.toJson (body : Body) : Json :=
  record [("return_value", natural body.returnValue), ("parameters", list natural body.parameters),
    ("locals", list natural body.locals), ("temporaries", list natural body.temporaries),
    ("values", list Value.toJson body.values), ("blocks", list Block.toJson body.blocks), ("entry", natural body.entry),
    ("sink", natural body.sink)]

/-- The bare name of a declaration, or an object whose one key names the kind. -/
def SubroutineKind.toJson : SubroutineKind → Json
  | .defined body => tagged "Defined" body.toJson
  | .declared => .text "Declared"
  | .imported library entryPoint =>
    tagged "Imported" (record [("library", .text library), ("entry_point", nullable .text entryPoint)])

/-- A subroutine with all of its fields. -/
def Subroutine.toJson (subroutine : Subroutine) : Json :=
  record [("symbol", subroutine.symbol.toJson), ("ty", natural subroutine.ty),
    ("linkage", .text subroutine.linkage.name), ("owner", nullable natural subroutine.owner),
    ("kind", subroutine.kind.toJson)]

/-- A field with its type. -/
def Field.toJson (field : Field) : Json := record [("name", .text field.name), ("ty", natural field.ty)]

/-- A method with its subroutine. -/
def Method.toJson (method : Method) : Json :=
  record [("name", .text method.name), ("subroutine", natural method.subroutine)]

/-- A class with all of its members. -/
def ClassLayout.toJson (decl : ClassLayout) : Json :=
  record [("symbol", decl.symbol.toJson), ("ty", natural decl.ty), ("fields", list Field.toJson decl.fields),
    ("methods", list Method.toJson decl.methods)]

/-- A literal of the pool. -/
def Literal.toJson (literal : Literal) : Json :=
  record [("id", natural literal.id), ("ty", natural literal.ty), ("value", literal.value.toJson)]

def Program.toJson (program : Program) : Json :=
  record [("class_names", list .text program.classNames), ("subroutines", list Subroutine.toJson program.subroutines),
    ("defined", list natural program.defined), ("declared", list natural program.declared),
    ("imported", list natural program.imported), ("methods", list natural program.methods),
    ("classes", list ClassLayout.toJson program.classes), ("literals", list Literal.toJson program.literals),
    ("entry", nullable natural program.entry)]

end TagAsm.Flow
