import TagAsm.Asm.Print
import TagAsm.Select.Initializer
import TagAsm.Select.Subroutine

/-!
# Selecting programs

The subroutines with a body are emitted in order, methods apart. Methods and initializers follow once something refers to
them. A subroutine that is refused is reported and left out. At the end, if the entry subroutine was emitted, the code that
starts the process is put in front.
-/

namespace TagAsm.Select

open Asm Abi SelectM
open TagAsm.Flow (SubroutineId)

/-- What was emitted so far. -/
structure Emission where
  kept : Selection
  text : List Item
  debug : DebugTables
  /-- The subroutines that were emitted. -/
  emitted : List SubroutineId
  deriving DecidableEq, Repr

/-- The variables of a subroutine, with their names entered into the table of names. -/
def variableEntries (tables : DebugTables) :
    List (Int × String × VariableRole) → List VariableEntry × DebugTables
  | [] => ([], tables)
  | (offset, name, role) :: rest =>
    let (id, tables) := tables.string name
    let (entries, tables) := variableEntries tables rest
    (⟨offset, id, role⟩ :: entries, tables)

/-- Describes an emitted subroutine in the debug tables. -/
def describe (tables : DebugTables) (name symbol : String) (lines : List LineEntry)
    (places : List (Int × String × VariableRole)) : DebugTables :=
  let (id, tables) := (tables.addLines lines).string name
  let (entries, tables) := variableEntries tables places
  tables.addInfo ⟨localLabel symbol "entry", localLabel symbol "exit", id, entries⟩

/-- Notes that a construct was left out. -/
def Emission.refuse (emission : Emission) (kept : Selection) (diagnostic : Diagnostic) : Emission :=
  { emission with kept := { kept with diagnostics := kept.diagnostics ++ [diagnostic] } }

/-- Emits a subroutine, if it has a body. -/
def emitSubroutine (context : Context) (id : SubroutineId) (emission : Emission) : Except Fault Emission := do
  match context.program.subroutines[id]? with
  | none => return emission
  | some subroutine =>
    match subroutine.kind with
    | .declared | .imported .. => return emission
    | .defined body =>
      let name ← context.program.subroutineName id
      let what := "`" ++ name ++ "`"
      let some symbol := emission.kept.symbols.subroutine? id
        | return emission.refuse emission.kept ((Refusal.missingSubroutine id).report subroutine.symbol.location what)
      let (result, kept) ← (subroutineCode context id subroutine body symbol).run.run emission.kept
      match result with
      | .ok (items, frame) =>
        let places ← variablePlaces body frame
        let debug :=
          if context.debugInfo then describe emission.debug name symbol (lineEntries symbol body) places
          else emission.debug
        return { kept, text := emission.text ++ items, debug, emitted := emission.emitted ++ [id] }
      | .error refusal =>
        return emission.refuse kept (refusal.report subroutine.symbol.location what)

/-- Emits the initializer of a class type. -/
def emitInitializer (context : Context) (ty : TypeId) (symbol : String) (emission : Emission) :
    Except Fault Emission := do
  let what := "initializer `" ++ symbol ++ "`"
  match context.program.classOfType? ty with
  | none =>
    let name ← context.program.typeName ty
    return emission.refuse emission.kept ((Refusal.missingClass name).report .unknown what)
  | some decl =>
    let (result, kept) ← (initializerCode context decl symbol).run.run emission.kept
    match result with
    | .ok items => return { emission with kept, text := emission.text ++ items }
    | .error refusal => return emission.refuse kept (refusal.report decl.symbol.location what)

/-- Emits what waits in the queue, and what that adds to it. Besides the subroutines that wait in the beginning, every
method and every initializer waits once at most, so `fuel` need not exceed their number. -/
def drain (context : Context) : Nat → Emission → Except Fault Emission
  | 0, emission => .ok emission
  | fuel + 1, emission =>
    match emission.kept.queue with
    | [] => .ok emission
    | work :: queue => do
      let waiting := { emission with kept := { emission.kept with queue } }
      let emission ←
        match work with
        | .subroutine id => emitSubroutine context id waiting
        | .initializer ty symbol => emitInitializer context ty symbol waiting
      drain context fuel emission

/-- The most that can ever wait in the queue, all in all. -/
def workBound (program : Flow.Program) : Nat :=
  program.defined.length + program.subroutines.length + program.classes.length

/-- The code that starts the process: it makes an empty return value and calls the entry subroutine, which does not
return. -/
def startCode (symbol : String) : SelectM (List Item) := do
  let frame := Frame.empty.reserve inlineSlotSize
  let result : Argument := .value ⟨-frame.size, false⟩
  let make ← callHelper frame .makeNone [result]
  return Item.exportedLabel startSymbol
    ++ Item.code [.movq (.quad .rsp) (.quad .rbp), .subq frame.size .rsp]
    ++ make ++ callDirect frame symbol [result]

/-- Emits the start of the process, if the program has an entry subroutine and it was emitted. An entry subroutine without a
body is an error; one that was refused has been reported already. -/
def emitStart (context : Context) (emission : Emission) : Except Fault Emission := do
  match context.program.entry with
  | none => return emission
  | some entry =>
    if entry ∈ emission.emitted then
      let some symbol := emission.kept.symbols.subroutine? entry | return emission
      let (result, kept) ← (startCode symbol).run.run emission.kept
      match result with
      | .ok items => return { emission with kept, text := items ++ emission.text }
      | .error _ => return { emission with kept }
    else
      match context.program.subroutines[entry]? with
      | some subroutine =>
        if subroutine.body?.isNone then
          return emission.refuse emission.kept
            (.error .codegen .missingEntry subroutine.symbol.location
              ("entry subroutine `" ++ subroutine.symbol.name ++ "` has no body"))
        else
          return emission
      | none => return emission

/-- The unit that was emitted, with the strings that the code refers to. -/
def Emission.toUnit (emission : Emission) (debugInfo : Bool) : AssemblyUnit :=
  let rodata := emission.kept.symbols.stringEntries.flatMap fun (contents, symbol) =>
    [Item.label symbol, .data (.ascii contents)]
  let unit : AssemblyUnit := ⟨emission.kept.externs, rodata, emission.text, [], [], []⟩
  if debugInfo then emission.debug.emit unit else unit

/-- Selects the instructions of a program. What could not be compiled is reported at the end of the diagnostics. -/
def selectProgram (context : Context) (diagnostics : Diagnostics) : Except Fault (AssemblyUnit × Diagnostics) := do
  let symbols ← SymbolTable.ofProgram context.program (Helper.all.map Helper.symbol)
  let queue := context.program.defined.map Work.subroutine
  let start : Emission := ⟨⟨symbols, [], queue, diagnostics⟩, [], .empty, []⟩
  let emission ← drain context (workBound context.program) start
  let emission ← emitStart context emission
  return (emission.toUnit context.debugInfo, emission.kept.diagnostics)

end TagAsm.Select
