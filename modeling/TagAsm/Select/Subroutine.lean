import TagAsm.Select.Statement

/-!
# Selecting subroutines

A subroutine is emitted in phases, each under a label of its own: `entry` saves the caller's frame, reserves all slots and
keeps the addresses that arrived; `copy` copies the parameters into records of its own; `init` gives every local and
temporary a default value; then come the blocks; `deinit` ends the life of all that the subroutine owns; and `epilogue`
returns to the caller, or ends the process if this is the entry subroutine.
-/

namespace TagAsm.Select

open Asm Abi SelectM
open TagAsm.Flow (SubroutineId ValueId BlockId Block Body Terminator)

/-- How a subroutine ends. -/
inductive Exit where
  | toCaller
  /-- Ends the process. The exit code is the return value, taken as this primitive, or zero without one. -/
  | ofProcess (code : Option Primitive)
  deriving DecidableEq, Repr

/-- How the entry subroutine turns its return value into an exit code. -/
def exitCode (context : Context) (id : SubroutineId) (subroutine : Flow.Subroutine) : SelectM (Option Primitive) := do
  let (parameters, returnType) ← require (← lookUp (context.program.types.signature subroutine.ty)) (.notCallable id)
  unless parameters.isEmpty do
    reject .wrongArgumentCount "the entry subroutine can't take parameters"
  match ← lookUp (context.program.types.get returnType) with
  | .void => return none
  | .dynamic => return some .int
  | .primitive .string | .array _ | .function .. | .classType .. =>
    let name ← lookUp (context.program.typeName returnType)
    reject .unsupportedReturnType ("the entry subroutine can't return `" ++ name ++ "` as an exit code")
  | .primitive kind => return some kind

/-- How a subroutine ends. -/
def exitOf (context : Context) (id : SubroutineId) (subroutine : Flow.Subroutine) : SelectM Exit := do
  if context.program.entry = some id then
    return .ofProcess (← exitCode context id subroutine)
  else
    return .toCaller

/-- Saves the caller's frame, reserves the whole frame, and keeps the addresses that arrived in registers. -/
def entryCode (symbol : String) (layout : Layout) : List Item :=
  Item.exportedLabel symbol ++ [.label (localLabel symbol "entry")]
    ++ Item.code
      (Instruction.openFrame
        ++ (if 0 < layout.frame.size then [.subq layout.frame.size .rsp] else [])
        ++ [.movq (.quad .rdi) (.frame layout.returnSlot.offset)]
        ++ (layout.incoming.zip (Register.arguments.drop 1)).map fun (slot, register) =>
          .movq (.quad register) (.frame slot.offset))

/-- Copies parameters into their records, one after the other, and uses the records from then on. -/
def copyCode : Frame → List (ValueId × Slot) → SelectM (List Item × Frame)
  | frame, [] => return ([], frame)
  | frame, (parameter, record) :: rest => do
    let source ← valueArgument frame parameter
    let (others, last) ← copyCode (frame.bind parameter record) rest
    return (callOperation frame .copy [.value record, source] .rsi ++ others, last)

/-- The locals and temporaries that hold values of their own. -/
def ownedVariables (body : Body) : List ValueId :=
  (body.locals ++ body.temporaries).filter (· ∉ referenceValues body)

/-- The values that a subroutine has to give up in the end: parameters, locals and temporaries, in that order. -/
def ownedValues (body : Body) : List ValueId :=
  (body.parameters ++ body.locals ++ body.temporaries).filter (· ∉ referenceValues body)

/-- Gives a local or temporary its default value. -/
def defaultCode (context : Context) (frame : Frame) (body : Body) (id : ValueId) : SelectM (List Item) := do
  let target ← valueArgument frame id
  let value ← lookUp (body.values.fetch .value id)
  makeDefault context frame target value.ty

/-- Leaves a block. -/
def terminatorCode (routine : Routine) : Terminator → SelectM (List Item)
  | .branch condition positive negative => do
    let condition ← valueArgument routine.frame condition
    let unwrap ← callHelper routine.frame (.unwrap .bool) [condition]
    return unwrap
      ++ Item.code (Instruction.branchIfSet .rax (blockLabel routine.symbol positive) (blockLabel routine.symbol negative))
  | .jump target => return Item.code [.jmp (blockLabel routine.symbol target)]
  | .sink => return Item.code [.jmp (localLabel routine.symbol "deinit")]

/-- The code of a block whose first statement has the number `start`. -/
def blockCode (context : Context) (routine : Routine) (id : BlockId) (block : Block) (start : Nat) :
    SelectM (List Item) := do
  let statements ← (EmitM.statements context routine (block.statements.zipIdx start)).code routine.frame
  let terminator ← terminatorCode routine block.terminator
  return .label (blockLabel routine.symbol id) :: (statements ++ terminator)

/-- The code of blocks, whose statements are numbered through. -/
def blocksCode (context : Context) (routine : Routine) : Nat → List (BlockId × Block) → SelectM (List Item)
  | _, [] => return []
  | start, (id, block) :: rest => do
    let first ← blockCode context routine id block start
    let others ← blocksCode context routine (start + block.statements.length) rest
    return first ++ others

/-- Ends the lives of values. -/
def dropCode (frame : Frame) (ids : List ValueId) : SelectM (List Item) :=
  collect (fun id => return dropValue frame (← valueArgument frame id)) ids

/-- Brings the exit code into place. -/
def exitCodeCode (frame : Frame) (returnValue : ValueId) (code : Option Primitive) : SelectM (List Item) := do
  match code with
  | some kind =>
    let value ← valueArgument frame returnValue
    let unwrap ← callHelper frame (.unwrap kind) [value]
    return unwrap ++ Item.code [.movq (.quad .rax) (.quad .rdi)]
  | none => return Item.code [.zero .rdi]

/-- Leaves the subroutine. -/
def exitItems (frame : Frame) (returnValue : ValueId) : Exit → SelectM (List Item)
  | .toCaller => return Item.code Instruction.closeFrame
  | .ofProcess code => do
    let flush ← callHelper frame .flushOutput []
    let value ← exitCodeCode frame returnValue code
    return flush ++ value ++ Item.code Instruction.exitProcess

/-- The code of a subroutine with a body, and the slots of its variables. -/
def subroutineCode (context : Context) (id : SubroutineId) (subroutine : Flow.Subroutine) (body : Body)
    (symbol : String) : SelectM (List Item × Frame) := do
  let exit ← exitOf context id subroutine
  let words ← lookUp (scratchWords context.program body)
  let layout := layoutOf body words
  let (copy, frame) ← copyCode layout.frame layout.records
  let routine : Routine := ⟨id, symbol, body, frame, layout.scratch⟩
  let defaults ← collect (defaultCode context frame body) (ownedVariables body)
  let blocks ← blocksCode context routine 0 body.blocks.entries
  let drops ← dropCode frame (ownedValues body)
  let leave ← exitItems frame body.returnValue exit
  let items := entryCode symbol layout
    ++ [.label (localLabel symbol "copy")] ++ copy
    ++ [.label (localLabel symbol "init")] ++ defaults
    ++ blocks
    ++ [.label (localLabel symbol "deinit")] ++ drops
    ++ [.label (localLabel symbol "epilogue")] ++ leave
    ++ [.label (localLabel symbol "exit")]
  return (items, frame)

/-! ## Debug entries -/

/-- The entries for the lines of a body. -/
def lineEntries (symbol : String) (body : Body) : List LineEntry :=
  (bodyStatements body).zipIdx.filterMap fun (statement, number) =>
    DebugTables.lineEntry? (lineLabel symbol number) statement.location

/-- A variable of a body with its place, if it has a name and a place. -/
def variablePlace? (body : Body) (frame : Frame) (entry : ValueId × VariableRole) :
    Except Fault (Option (Int × String × VariableRole)) := do
  let value ← body.values.fetch .value entry.1
  match value.symbol, frame.slot? entry.1 with
  | some symbol, some slot => return some (slot.offset, symbol.name, entry.2)
  | _, _ => return none

/-- The variables of a body with their places: the parameters, then the locals. -/
def variablePlaces (body : Body) (frame : Frame) : Except Fault (List (Int × String × VariableRole)) := do
  let entries := body.parameters.map (·, VariableRole.parameter) ++ body.locals.map (·, VariableRole.localVariable)
  return (← entries.mapM (variablePlace? body frame)).filterMap id

end TagAsm.Select
