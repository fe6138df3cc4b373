import TagAsm.Flow.Encode
import TagAsm.Source.Decode

/-!
# Flow programs from JSON

Decoders for documents like those that `Flow.Program.toJson` writes, with the files and the types beside the rest. Lists that
are left out are empty, and a position that is left out is unknown.
-/

namespace TagAsm.Flow

open Json (asId asString asOption asList asFields asRecord asAlternative asChoice)

/-- A list that may be left out. -/
def listOrEmpty {α : Type} (decode : Nat → Json → Option α) (depth : Nat) : Json → Option (List α)
  | .null => some []
  | json => asList decode depth json

/-- A list of ids that may be left out. -/
def idsOrEmpty (depth : Nat) (json : Json) : Option (List Nat) := listOrEmpty (fun _ => asId) depth json

/-- A position that may be left out. -/
def locationOrUnknown (depth : Nat) (json : Json) : Option Location :=
  return (← asOption (Location.ofJson? depth) json).getD .unknown

/-- A name, whose position may be left out. -/
def symbolOfJson? (depth : Nat) (json : Json) : Option Symbol := do
  let [name, location] ← asFields [("name", .required), ("location", .optional)] json | none
  return ⟨← asString name, ← locationOrUnknown depth location⟩

/-- An object whose one key tells what is assigned. -/
def AssignSource.ofJson? (json : Json) : Option AssignSource :=
  match asAlternative json with
  | some (.holding "Value" id) => (asId id).map .value
  | some (.holding "Literal" id) => (asId id).map .literal
  | some (.holding "Subroutine" id) => (asId id).map .subroutine
  | _ => none

/-- The fields of a member access. -/
def memberOfFields? (make : ValueId → ValueId → LiteralId → Action) (json : Json) : Option Action := do
  let [result, object, name] ← asRecord ["result", "object", "name"] json | none
  return make (← asId result) (← asId object) (← asId name)

/-- What a statement of this name does. -/
def Action.ofFields? (depth : Nat) (name : String) (json : Json) : Option Action :=
  match name with
  | "Operator" => do
    let [kind, result, arguments] ←
      asFields [("kind", .required), ("result", .required), ("arguments", .optional)] json | none
    return .operator (← asChoice Operator.name Operator.all depth kind) (← asId result) (← idsOrEmpty depth arguments)
  | "Call" => do
    let [result, callee, arguments] ←
      asFields [("result", .required), ("callee", .required), ("arguments", .optional)] json | none
    return .call (← asId result) (← asId callee) (← idsOrEmpty depth arguments)
  | "Member" => memberOfFields? .member json
  | "MemberRef" => memberOfFields? .memberRef json
  | "Builtin" => do
    let [kind, template, result, arguments] ←
      asFields [("kind", .required), ("template", .optional), ("result", .optional), ("arguments", .optional)] json
      | none
    return .builtin (← asChoice Builtin.name Builtin.all depth kind) (← asOption asId template) (← asOption asId result)
      (← idsOrEmpty depth arguments)
  | "Assign" => do
    let [destination, source] ← asRecord ["destination", "source"] json | none
    return .assign (← asId destination) (← AssignSource.ofJson? source)
  | _ => none

/-- What a statement does, and its position if it is given. -/
def Statement.ofJson? (depth : Nat) (json : Json) : Option Statement := do
  let [kind, location] ← asFields [("kind", .required), ("location", .optional)] json | none
  match asAlternative kind with
  | some (.holding name fields) => return ⟨← Action.ofFields? depth name fields, ← locationOrUnknown depth location⟩
  | _ => none

/-- A branch, a jump, or the bare name of the sink. -/
def Terminator.ofJson? (json : Json) : Option Terminator :=
  match asAlternative json with
  | some (.holding "Conditional" fields) => do
    let [condition, positive, negative] ← asRecord ["condition", "positive", "negative"] fields | none
    return .branch (← asId condition) (← asId positive) (← asId negative)
  | some (.holding "Unconditional" target) => (asId target).map .jump
  | some (.bare "Sink") => some .sink
  | _ => none

/-- A block, which has a terminator if nothing else. -/
def Block.ofJson? (depth : Nat) (json : Json) : Option Block := do
  let [statements, terminator, expressions] ←
    asFields [("statements", .optional), ("terminator", .required), ("expressions", .optional)] json | none
  return ⟨← listOrEmpty Statement.ofJson? depth statements, ← Terminator.ofJson? terminator,
    ← idsOrEmpty depth expressions⟩

/-- A value, named or not. -/
def Value.ofJson? (depth : Nat) (json : Json) : Option Value := do
  let [id, symbol, ty] ← asFields [("id", .required), ("symbol", .optional), ("ty", .required)] json | none
  return ⟨← asId id, ← asOption (symbolOfJson? depth) symbol, ← asId ty⟩

def bodyFields : List (String × Json.Presence) :=
  [("return_value", .required), ("parameters", .optional), ("locals", .optional), ("temporaries", .optional),
    ("values", .optional), ("blocks", .optional), ("entry", .required), ("sink", .required)]

/-- A body, of which only the return value, the entry and the sink have to be given. -/
def Body.ofJson? (depth : Nat) (json : Json) : Option Body := do
  let [returnValue, parameters, locals, temporaries, values, blocks, entry, sink] ← asFields bodyFields json | none
  return {
    returnValue := ← asId returnValue
    parameters := ← idsOrEmpty depth parameters
    locals := ← idsOrEmpty depth locals
    temporaries := ← idsOrEmpty depth temporaries
    values := ← listOrEmpty Value.ofJson? depth values
    blocks := ← listOrEmpty Block.ofJson? depth blocks
    entry := ← asId entry
    sink := ← asId sink }

/-- A graph, a bare declaration, or an import. -/
def SubroutineKind.ofJson? (depth : Nat) (json : Json) : Option SubroutineKind :=
  match asAlternative json with
  | some (.bare "Declared") => some .declared
  | some (.holding "Defined" body) => (Body.ofJson? depth body).map .defined
  | some (.holding "Imported" fields) => do
    let [library, entryPoint] ← asFields [("library", .required), ("entry_point", .optional)] fields | none
    return .imported (← asString library) (← asOption asString entryPoint)
  | _ => none

/-- The fields of a subroutine, of which the owner may be left out. -/
def subroutineFields : List (String × Json.Presence) :=
  [("symbol", .required), ("ty", .required), ("linkage", .required), ("owner", .optional), ("kind", .required)]

/-- A subroutine with all of its fields, the owner apart. -/
def Subroutine.ofJson? (depth : Nat) (json : Json) : Option Subroutine := do
  let [symbol, ty, linkage, owner, kind] ← asFields subroutineFields json | none
  return ⟨← symbolOfJson? depth symbol, ← asId ty, ← Source.Linkage.ofJson? depth linkage, ← asOption asId owner,
    ← SubroutineKind.ofJson? depth kind⟩

/-- A field with its type. -/
def Field.ofJson? (json : Json) : Option Field := do
  let [name, ty] ← asRecord ["name", "ty"] json | none
  return ⟨← asString name, ← asId ty⟩

/-- A method with its subroutine. -/
def Method.ofJson? (json : Json) : Option Method := do
  let [name, subroutine] ← asRecord ["name", "subroutine"] json | none
  return ⟨← asString name, ← asId subroutine⟩

/-- A class, whose members may be left out. -/
def ClassLayout.ofJson? (depth : Nat) (json : Json) : Option ClassLayout := do
  let [symbol, ty, fields, methods] ←
    asFields [("symbol", .required), ("ty", .required), ("fields", .optional), ("methods", .optional)] json | none
  return ⟨← symbolOfJson? depth symbol, ← asId ty, ← listOrEmpty (fun _ => Field.ofJson?) depth fields,
    ← listOrEmpty (fun _ => Method.ofJson?) depth methods⟩

/-- A literal of the pool. -/
def Literal.ofJson? (depth : Nat) (json : Json) : Option Literal := do
  let [id, ty, value] ← asRecord ["id", "ty", "value"] json | none
  return ⟨← asId id, ← asId ty, ← LiteralValue.ofJson? depth value⟩

def programFields : List (String × Json.Presence) :=
  [("files", .optional), ("types", .required), ("class_names", .optional), ("subroutines", .optional),
    ("defined", .optional), ("declared", .optional), ("imported", .optional), ("methods", .optional),
    ("classes", .optional), ("literals", .optional), ("entry", .optional)]

/-- The program that a document holds. -/
def Program.ofJson? (depth : Nat) (json : Json) : Option Program := do
  let [files, types, classNames, subroutines, defined, declared, imported, methods, classes, literals, entry] ←
    asFields programFields json | none
  return {
    files := ← listOrEmpty SourceFile.ofJson? depth files
    types := ← TypeTable.ofJson? depth types
    classNames := ← listOrEmpty (fun _ => asString) depth classNames
    subroutines := ← listOrEmpty Subroutine.ofJson? depth subroutines
    defined := ← idsOrEmpty depth defined
    declared := ← idsOrEmpty depth declared
    imported := ← idsOrEmpty depth imported
    methods := ← idsOrEmpty depth methods
    classes := ← listOrEmpty ClassLayout.ofJson? depth classes
    literals := ← listOrEmpty Literal.ofJson? depth literals
    entry := ← asOption asId entry }

end TagAsm.Flow
