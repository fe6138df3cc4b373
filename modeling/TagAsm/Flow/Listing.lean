import TagAsm.Flow.Basic
import TagAsm.Text.Styled

/-!
# Listings of flow programs

The text form of a flow program: its literals, its classes, and every subroutine with its blocks. Colours are switched on and
off as a whole. Whatever a statement mentions is looked up when it is shown, so showing it can be a fault.
-/

namespace TagAsm.Flow

namespace Body

/-- A value: its number, and its name if it has one. -/
def valueText (body : Body) (colored : Bool) (id : ValueId) : Except Fault String := do
  let value ← body.values.fetch .value id
  let name :=
    match value.symbol with
    | some symbol => "%" ++ toString id ++ "." ++ symbol.name
    | none => "%" ++ toString id
  return Color.yellow.paint colored name

/-- Values, separated by commas. -/
def valuesText (body : Body) (colored : Bool) (ids : List ValueId) : Except Fault String :=
  return ", ".intercalate (← ids.mapM (body.valueText colored))

end Body

/-- A block by its number. -/
def blockName (id : BlockId) : String := "bb" ++ toString id

/-- How a block is left. -/
def Terminator.text (body : Body) (colored : Bool) : Terminator → Except Fault String
  | .branch condition positive negative => do
    let condition ← body.valueText colored condition
    return " ".intercalate
      [Color.cyan.paint colored "br", condition, Color.blue.paint colored (blockName positive),
        Color.blue.paint colored (blockName negative)]
  | .jump target => return Color.cyan.paint colored "jmp" ++ " " ++ Color.blue.paint colored (blockName target)
  | .sink => return Color.cyan.paint colored "sink"

namespace Program

/-- A literal of the pool, by what it is. -/
def literalText (program : Program) (colored : Bool) (id : LiteralId) : Except Fault String := do
  let literal ← program.literals.fetch .literal id
  return Color.magenta.paint colored literal.value.text

/-- A subroutine by its name. -/
def subroutineText (program : Program) (colored : Bool) (id : SubroutineId) : Except Fault String :=
  return Color.blue.paint colored (← program.subroutineName id)

/-- What an assignment takes. -/
def sourceText (program : Program) (body : Body) (colored : Bool) : AssignSource → Except Fault String
  | .value id => body.valueText colored id
  | .literal id => program.literalText colored id
  | .subroutine id => program.subroutineText colored id

/-- What a statement does. -/
def actionText (program : Program) (body : Body) (colored : Bool) : Action → Except Fault String
  | .operator kind result arguments => do
    let result ← body.valueText colored result
    let arguments ← body.valuesText colored arguments
    return result ++ " " ++ Color.white.paint colored "=" ++ " " ++ Color.cyan.paint colored kind.symbol ++ " " ++ arguments
  | .call result callee arguments => do
    let result ← body.valueText colored result
    let callee ← program.subroutineText colored callee
    let arguments ← body.valuesText colored arguments
    return result ++ " " ++ Color.white.paint colored "=" ++ " " ++ Color.cyan.paint colored "call" ++ " " ++ callee
      ++ "(" ++ arguments ++ ")"
  | .member result object name => do
    let result ← body.valueText colored result
    let object ← body.valueText colored object
    let name ← program.literalText colored name
    return result ++ " " ++ Color.white.paint colored "=" ++ " " ++ object ++ "." ++ name
  | .memberRef result object name => do
    let result ← body.valueText colored result
    let object ← body.valueText colored object
    let name ← program.literalText colored name
    return result ++ " " ++ Color.white.paint colored "=" ++ " &" ++ object ++ "." ++ name
  | .builtin kind template result arguments => do
    let template ←
      match template with
      | some ty => pure ("<" ++ (← program.typeName ty) ++ ">")
      | none => pure ""
    let arguments ← body.valuesText colored arguments
    let call := Color.cyan.paint colored kind.symbol ++ template ++ "(" ++ arguments ++ ")"
    match result with
    | some result => return (← body.valueText colored result) ++ " " ++ Color.white.paint colored "=" ++ " " ++ call
    | none => return call
  | .assign destination source => do
    let source ← program.sourceText body colored source
    let destination ← body.valueText colored destination
    return destination ++ " " ++ Color.white.paint colored "<-" ++ " " ++ source

/-- The declaration of a value that is no parameter. -/
def declarationLine (program : Program) (body : Body) (colored : Bool) (id : ValueId) : Except Fault String := do
  let name ← body.valueText colored id
  let value ← body.values.fetch .value id
  let ty ← program.typeName value.ty
  return "    " ++ Color.magenta.paint colored "let" ++ " " ++ name ++ ": " ++ Color.white.paint colored ty ++ "\n"

/-- A block: its label, its statements, and how it is left. -/
def blockLines (program : Program) (body : Body) (colored : Bool) (entry : BlockId × Block) : Except Fault String := do
  let (id, block) := entry
  let label := blockName id ++ ":" ++ (if id = body.entry then " (entry)" else "")
  let statements ← block.statements.mapM fun statement =>
    return "    " ++ (← program.actionText body colored statement.action) ++ "\n"
  let terminator ← block.terminator.text body colored
  return Color.brightRed.paint colored label ++ "\n" ++ String.join statements ++ "    " ++ terminator ++ "\n"

/-- The rest of a subroutine's listing after its name and the opening parenthesis. -/
def bodyLines (program : Program) (body : Body) (colored : Bool) : Except Fault String := do
  let parameters ← body.valuesText colored body.parameters
  let returnValue ← body.valueText colored body.returnValue
  let declarations ← (body.locals ++ body.temporaries).mapM (program.declarationLine body colored)
  let blocks ← body.blocks.entries.mapM (program.blockLines body colored)
  return Color.white.paint colored parameters ++ Color.white.paint colored ") ->" ++ " " ++ returnValue ++ " "
    ++ Color.white.paint colored "\x7b" ++ "\n" ++ String.join declarations ++ String.join blocks
    ++ Color.white.paint colored "\x7d" ++ "\n"

/-- The word that introduces a subroutine. -/
def keyword : SubroutineKind → String
  | .defined _ => "fn"
  | .declared => "declare fn"
  | .imported .. => "import fn"

/-- The listing of a subroutine. -/
def subroutineLines (program : Program) (colored : Bool) (id : SubroutineId) : Except Fault String := do
  let subroutine ← program.subroutines.fetch .subroutine id
  let name ← program.subroutineText colored id
  let head := Color.magenta.paint colored (keyword subroutine.kind) ++ " " ++ name ++ Color.white.paint colored "("
  match subroutine.kind with
  | .defined body => return head ++ (← program.bodyLines body colored)
  | .declared => return head ++ Color.white.paint colored ")" ++ "\n"
  | .imported library entryPoint =>
    let entryPoint :=
      match entryPoint with
      | some name => " as " ++ name
      | none => ""
    return head ++ Color.white.paint colored ")" ++ " " ++ Color.magenta.paint colored "from" ++ " "
      ++ Color.green.paint colored (Quoted.string library ++ entryPoint) ++ "\n"

/-- The line of a literal. -/
def literalLine (colored : Bool) (entry : LiteralId × Literal) : String :=
  Color.magenta.paint colored "const" ++ " " ++ Color.magenta.paint colored ("$lit" ++ toString entry.1) ++ " "
    ++ Color.white.paint colored "=" ++ " " ++ entry.2.value.text ++ "\n"

/-- The line of a class: its fields, then its methods. -/
def classLine (program : Program) (colored : Bool) (decl : ClassLayout) : Except Fault String := do
  let name ← program.typeName decl.ty
  let members := decl.fields.map (·.name) ++ decl.methods.map (·.name ++ "()")
  return Color.magenta.paint colored "class" ++ " " ++ Color.blue.paint colored name
    ++ " \x7b " ++ ", ".intercalate members ++ " \x7d\n"

/-- The listing of a program. -/
def listing (program : Program) (colored : Bool) : Except Fault String := do
  let literals := program.literals.entries.map (literalLine colored)
  let classes ← program.classes.mapM (program.classLine colored)
  let subroutines ← program.subroutines.ids.mapM (program.subroutineLines colored)
  return String.join literals ++ (if program.literals.isEmpty then "" else "\n") ++ String.join classes
    ++ String.join (subroutines.map (· ++ "\n"))

end Program

end TagAsm.Flow
