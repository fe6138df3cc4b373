import TagAsm.Asm.Call
import TagAsm.Asm.Symbols
import TagAsm.Asm.Unit
import TagAsm.Diagnostic

/-!
# Selecting instructions: the ground

Every value lives in a stack slot, and every operation is a call, so selecting instructions comes down to bringing addresses
into place. What selection keeps beside the code is the names that were handed out, the symbols that others provide, and the
subroutines that still have to be emitted. A construct that cannot be compiled is refused; what was kept before stays.
-/

namespace TagAsm.Select

open Asm Abi
open TagAsm.Flow (SubroutineId ValueId LiteralId)

/-- Code that still has to be emitted. -/
inductive Work where
  | subroutine (id : SubroutineId)
  | initializer (ty : TypeId) (symbol : String)
  deriving DecidableEq, Repr

/-- Why a construct was not compiled. -/
inductive Refusal where
  /-- The construct makes sense but cannot be compiled. -/
  | rejected (kind : DiagnosticKind) (message : String)
  /-- The construct refers to something that an earlier stage should have provided. -/
  | missingSlot (id : ValueId)
  | notAReference (id : ValueId)
  | missingSubroutine (id : SubroutineId)
  | notCallable (id : SubroutineId)
  | unusableLiteral (id : LiteralId)
  | missingResult
  | missingScratch
  | missingClass (name : String)
  deriving DecidableEq, Repr

namespace Refusal

/-- The kind under which a refusal is reported. -/
def kind : Refusal → DiagnosticKind
  | .rejected kind _ => kind
  | _ => .missingSymbol

/-- The refusal in words. -/
def message : Refusal → String
  | .rejected _ message => message
  | .missingSlot id => "value %" ++ toString id ++ " has no stack slot"
  | .notAReference id => "value %" ++ toString id ++ " is expected to hold a reference"
  | .missingSubroutine id => "subroutine #" ++ toString id ++ " has no symbol"
  | .notCallable id => "subroutine #" ++ toString id ++ " does not have a function type"
  | .unusableLiteral id => "literal #" ++ toString id ++ " can't be materialized"
  | .missingResult => "statement has no result value"
  | .missingScratch => "no scratch space was reserved for a native call"
  | .missingClass name => "no class layout for `" ++ name ++ "`"

/-- The error about a construct, called `what`, that was left out because of a refusal. -/
def report (refusal : Refusal) (location : Location) (what : String) : Diagnostic :=
  .error .codegen refusal.kind location (what ++ " was not compiled: " ++ refusal.message)

end Refusal

/-- What selection works on. -/
structure Context where
  program : Flow.Program
  /-- Whether debug tables are wanted. -/
  debugInfo : Bool
  /-- Whether texts are shown in colour. Comments lose their colours again. -/
  colored : Bool

/-- What selection keeps beside the code. -/
structure Selection where
  symbols : SymbolTable
  /-- The symbols that are defined elsewhere, in the order of first use. -/
  externs : List String
  /-- The code still to be emitted, in order. -/
  queue : List Work
  diagnostics : Diagnostics
  deriving DecidableEq, Repr

/-- A step of selection: a fault ends everything, a refusal leaves what was kept, and otherwise there is a result. -/
abbrev SelectM := ExceptT Refusal (StateT Selection (Except Fault))

namespace SelectM

/-- Looks something up. -/
def lookUp {α : Type} (result : Except Fault α) : SelectM α := liftM (m := StateT Selection (Except Fault)) (liftM result)

/-- Refuses a construct. -/
def refuse {α : Type} (refusal : Refusal) : SelectM α := throw refusal

/-- Refuses a construct that makes sense. -/
def reject {α : Type} (kind : DiagnosticKind) (message : String) : SelectM α := refuse (.rejected kind message)

/-- The value that is there, or a refusal. -/
def require {α : Type} (value : Option α) (refusal : Refusal) : SelectM α :=
  match value with
  | some value => pure value
  | none => refuse refusal

/-- Runs a step for each element and joins the results. -/
def collect {α β : Type} (step : α → SelectM (List β)) : List α → SelectM (List β)
  | [] => return []
  | a :: rest => do
    let first ← step a
    let others ← collect step rest
    return first ++ others

/-- Notes a symbol that is defined elsewhere. -/
def addExtern (name : String) : SelectM Unit := modify fun kept => { kept with externs := insertNew kept.externs name }

/-- Reports an error about a construct that is skipped. -/
def addError (kind : DiagnosticKind) (location : Location) (message : String) : SelectM Unit :=
  modify fun kept => { kept with diagnostics := kept.diagnostics ++ [.error .codegen kind location message] }

end SelectM

open SelectM

/-- The symbol of a subroutine that is referred to. A method is emitted once it is referred to, and what has no body is
defined elsewhere. -/
def subroutineSymbol (context : Context) (id : SubroutineId) : SelectM String := do
  let subroutine ← require context.program.subroutines[id]? (.missingSubroutine id)
  let symbol ← require ((← get).symbols.subroutine? id) (.missingSubroutine id)
  if subroutine.body?.isSome then
    if subroutine.owner.isSome then
      modify fun kept =>
        let (first, symbols) := kept.symbols.referenceMethod id
        { kept with symbols, queue := if first then kept.queue ++ [.subroutine id] else kept.queue }
  else
    addExtern symbol
  return symbol

/-- The symbol of the initializer of a class type, which is emitted once it is referred to. -/
def initializerSymbol (context : Context) (ty : TypeId) : SelectM String := do
  let ((symbol, first), symbols) ← lookUp ((← get).symbols.initializer context.program ty)
  modify fun kept => { kept with symbols, queue := if first then kept.queue ++ [.initializer ty symbol] else kept.queue }
  return symbol

/-- The address and the length of a string. -/
def stringArguments (contents : String) : SelectM (List Argument) :=
  modifyGet fun kept =>
    let (symbol, symbols) := kept.symbols.string contents
    ([.symbol symbol, .immediate contents.utf8ByteSize], { kept with symbols })

/-- Calls a symbol. -/
def callDirect (frame : Frame) (symbol : String) (arguments : List Argument) : List Item :=
  Item.code (frame.callCode arguments [.call (.symbol symbol)])

/-- Calls a helper of the value library. -/
def callHelper (frame : Frame) (helper : Helper) (arguments : List Argument) : SelectM (List Item) := do
  addExtern helper.symbol
  return callDirect frame helper.symbol arguments

/-- Goes through the operation table of the value whose address is in `receiver`. A call of a value takes any number of
arguments, which the convention wants to be told. -/
def operationTransfer (operation : Operation) (receiver : Register) : List Instruction :=
  [.movq (.displaced receiver tableOffset) (.quad .r11)]
    ++ (if operation = .call then [.zero .rax] else [])
    ++ [.call (if operation.offset = 0 then .indirect .r11 else .displaced .r11 operation.offset)]

/-- Calls an operation of the value that the `receiver` register carries. -/
def callOperation (frame : Frame) (operation : Operation) (arguments : List Argument) (receiver : Register) : List Item :=
  Item.code (frame.callCode arguments (operationTransfer operation receiver))

/-- Ends the life of a value. -/
def dropValue (frame : Frame) (value : Argument) : List Item := callOperation frame .drop [value] .rdi

/-- Makes the default value of a type, in a place that holds no value. -/
def makeDefault (context : Context) (frame : Frame) (target : Argument) (ty : TypeId) : SelectM (List Item) := do
  match ← lookUp (context.program.types.get ty) with
  | .primitive .string =>
    let contents ← stringArguments ""
    callHelper frame (.make .string) (target :: contents)
  | .primitive kind => callHelper frame (.make kind) [target, .immediate 0]
  | .array _ => callHelper frame .makeArray [target]
  | .void | .dynamic | .function .. | .classType .. => callHelper frame .makeNone [target]

end TagAsm.Select
