import TagAsm.Asm.Frame
import TagAsm.Asm.Instruction

/-!
# Passing arguments

The first six arguments of a call travel in registers. The rest is pushed from right to left, after as many bytes of padding
as it takes to have the stack aligned at the call. What was pushed is popped after the call.
-/

namespace TagAsm.Asm

/-- One argument of a call. -/
inductive Argument where
  /-- The address of a value: that of an inline slot, or the one that a slot by reference holds. -/
  | value (slot : Slot)
  /-- The word at this frame offset. -/
  | load (offset : Int)
  | immediate (value : Int)
  /-- The address of a label. -/
  | symbol (name : String)
  deriving DecidableEq, Repr

/-- Brings an argument into a register. -/
def Argument.loadInto (argument : Argument) (register : Register) : Instruction :=
  match argument with
  | .value ⟨offset, false⟩ => .leaq (.frame offset) register
  | .value ⟨offset, true⟩ => .movq (.frame offset) (.quad register)
  | .load offset => .movq (.frame offset) (.quad register)
  | .immediate word => .movq (.immediate word) (.quad register)
  | .symbol label => .leaq (.relative label) register

/-- The stack bytes that a call occupies. -/
structure CallFrame where
  padding : Int
  pushed : Int
  deriving DecidableEq, Repr

namespace CallFrame

/-- All bytes that a call occupies. -/
def total (call : CallFrame) : Int := call.padding + call.pushed

/-- What a call with these arguments occupies on a stack of `size` bytes. -/
def ofArguments (size : Int) (arguments : List Argument) : CallFrame :=
  let pushed : Int := 8 * ((arguments.drop Register.arguments.length).length : Nat)
  ⟨Int.tmod (16 - Int.tmod (size + pushed) 16) 16, pushed⟩

end CallFrame

/-- Pushes one argument. -/
def pushArgument (argument : Argument) : List Instruction := [argument.loadInto .rax, .pushq (.quad .rax)]

/-- Brings the arguments of a call into place: padding, what goes on the stack, then what goes into registers. -/
def marshalCode (call : CallFrame) (arguments : List Argument) : List Instruction :=
  (if 0 < call.padding then [.subq call.padding .rsp] else [])
    ++ (arguments.drop Register.arguments.length).reverse.flatMap pushArgument
    ++ (arguments.zip Register.arguments).map fun (argument, register) => argument.loadInto register

/-- Takes the arguments of a finished call off the stack. -/
def releaseCode (call : CallFrame) : List Instruction := if 0 < call.total then [.addq call.total .rsp] else []

namespace Frame

/-- Brings the arguments of a call into place, and counts what they occupy. -/
def marshal (frame : Frame) (arguments : List Argument) : CallFrame × List Instruction × Frame :=
  let call := CallFrame.ofArguments frame.size arguments
  (call, marshalCode call arguments, frame.grow call.total)

/-- Takes the arguments of a finished call off the stack, and no longer counts them. -/
def release (frame : Frame) (call : CallFrame) : List Instruction × Frame := (releaseCode call, frame.shrink call.total)

/-- A whole call: the arguments, the instructions that transfer control, and the release. The frame is the same after it. -/
def callCode (frame : Frame) (arguments : List Argument) (transfer : List Instruction) : List Instruction :=
  let (call, marshalled, inside) := frame.marshal arguments
  marshalled ++ transfer ++ (inside.release call).1

end Frame

end TagAsm.Asm
