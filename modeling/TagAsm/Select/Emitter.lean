import TagAsm.Select.Basic

/-!
# Emitting code

The code of statements is emitted step by step. It grows, and around every call the frame grows and shrinks. A step can be
refused at any point, and what it did until then stays, so a step has to check everything before it emits anything.
-/

namespace TagAsm.Select

open Asm Abi

/-- A block of code under way. -/
structure Emitter where
  kept : Selection
  /-- The code that was emitted so far. -/
  items : List Item
  frame : Frame
  deriving DecidableEq, Repr

/-- A step of emission: a fault ends everything, and a refusal leaves what was kept and emitted by then. -/
abbrev EmitM := ExceptT Refusal (StateT Emitter (Except Fault))

namespace EmitM

/-- A step of selection, which emits nothing. -/
def ofSelect {α : Type} (step : SelectM α) : EmitM α :=
  ExceptT.mk do
    let emitter ← get
    let (outcome, kept) ← liftM (step.run.run emitter.kept)
    set { emitter with kept }
    return outcome

/-- What a step emits in this frame. -/
def code (step : EmitM Unit) (frame : Frame) : SelectM (List Item) :=
  ExceptT.mk do
    let (outcome, emitter) ← liftM (step.run.run ⟨← get, [], frame⟩)
    set emitter.kept
    return outcome.map fun _ => emitter.items

/-- The frame as it is now. -/
def getFrame : EmitM Frame := return (← get).frame

/-- Adds to the code. -/
def emit (items : List Item) : EmitM Unit := modify fun emitter => { emitter with items := emitter.items ++ items }

/-- Brings the arguments of a call into place. -/
def marshal (arguments : List Argument) : EmitM CallFrame := do
  let (call, code, frame) := (← getFrame).marshal arguments
  modify fun emitter => { emitter with frame }
  emit (Item.code code)
  return call

/-- Takes the arguments of a finished call off the stack. -/
def release (call : CallFrame) : EmitM Unit := do
  let (code, frame) := (← getFrame).release call
  modify fun emitter => { emitter with frame }
  emit (Item.code code)

instance : MonadLift SelectM EmitM := ⟨ofSelect⟩

/-- A whole call, with the instructions that transfer control. -/
def callThrough (arguments : List Argument) (transfer : List Instruction) : EmitM Unit := do
  let call ← marshal arguments
  emit (Item.code transfer)
  release call

/-- Calls a symbol. -/
def callDirect (symbol : String) (arguments : List Argument) : EmitM Unit := callThrough arguments [.call (.symbol symbol)]

/-- Calls a helper of the value library. -/
def callHelper (helper : Helper) (arguments : List Argument) : EmitM Unit := do
  callDirect helper.symbol arguments
  SelectM.addExtern helper.symbol

/-- Calls an operation of the value that the `receiver` register carries. -/
def callOperation (operation : Operation) (arguments : List Argument) (receiver : Register) : EmitM Unit :=
  callThrough arguments (operationTransfer operation receiver)

/-- Ends the life of a value. -/
def dropValue (value : Argument) : EmitM Unit := callOperation .drop [value] .rdi

/-- Makes the default value of a type, in a place that holds no value. -/
def makeDefault (context : Context) (target : Argument) (ty : TypeId) : EmitM Unit := do
  match ← SelectM.lookUp (context.program.types.get ty) with
  | .primitive .string =>
    let contents ← stringArguments ""
    callHelper (.make .string) (target :: contents)
  | .primitive kind => callHelper (.make kind) [target, .immediate 0]
  | .array _ => callHelper .makeArray [target]
  | .void | .dynamic | .function .. | .classType .. => callHelper .makeNone [target]

end EmitM

end TagAsm.Select
