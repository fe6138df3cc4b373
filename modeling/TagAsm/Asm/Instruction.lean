/-!
# Instructions

The part of the x86-64 instruction set that compiled programs use: registers under their names of each width, the addressing
modes, and instructions with their operands in source-then-destination order.
-/

namespace TagAsm.Asm

/-- The general purpose registers that are used. -/
inductive Register where
  | rax
  | rbx
  | rcx
  | rdx
  | rsi
  | rdi
  | rbp
  | rsp
  | r8
  | r9
  | r10
  | r11
  deriving DecidableEq, Repr

/-- How much of a register is meant. -/
inductive Width where
  | quad
  | long
  | byte
  deriving DecidableEq, Repr

namespace Register

def all : List Register := [.rax, .rbx, .rcx, .rdx, .rsi, .rdi, .rbp, .rsp, .r8, .r9, .r10, .r11]

/-- The registers that carry arguments, in order. -/
def arguments : List Register := [.rdi, .rsi, .rdx, .rcx, .r8, .r9]

/-- The name of all 64 bits of a register. -/
def quadName : Register → String
  | .rax => "rax"
  | .rbx => "rbx"
  | .rcx => "rcx"
  | .rdx => "rdx"
  | .rsi => "rsi"
  | .rdi => "rdi"
  | .rbp => "rbp"
  | .rsp => "rsp"
  | .r8 => "r8"
  | .r9 => "r9"
  | .r10 => "r10"
  | .r11 => "r11"

/-- The name of the lower 32 bits of a register. -/
def longName : Register → String
  | .rax => "eax"
  | .rbx => "ebx"
  | .rcx => "ecx"
  | .rdx => "edx"
  | .rsi => "esi"
  | .rdi => "edi"
  | .rbp => "ebp"
  | .rsp => "esp"
  | .r8 => "r8d"
  | .r9 => "r9d"
  | .r10 => "r10d"
  | .r11 => "r11d"

/-- The name of the lowest 8 bits of a register. -/
def byteName : Register → String
  | .rax => "al"
  | .rbx => "bl"
  | .rcx => "cl"
  | .rdx => "dl"
  | .rsi => "sil"
  | .rdi => "dil"
  | .rbp => "bpl"
  | .rsp => "spl"
  | .r8 => "r8b"
  | .r9 => "r9b"
  | .r10 => "r10b"
  | .r11 => "r11b"

/-- The name of a register at a width. -/
def name (register : Register) : Width → String
  | .quad => register.quadName
  | .long => register.longName
  | .byte => register.byteName

end Register

/-- The size of what an instruction works on, if the instruction says so. -/
inductive Size where
  | byte
  | word
  | long
  | quad
  deriving DecidableEq, Repr

/-- The letter that a size adds to a mnemonic. -/
def Size.letter : Size → String
  | .byte => "b"
  | .word => "w"
  | .long => "l"
  | .quad => "q"

/-- What an instruction works on. -/
inductive Operand where
  /-- `%rax` -/
  | register (register : Register) (width : Width)
  /-- `$42` -/
  | immediate (value : Int)
  /-- `label`, the target of a call or jump. -/
  | symbol (name : String)
  /-- `displacement(base, index, scale)` -/
  | indexed (base : Option Register) (index : Register) (scale : UInt8) (displacement : Int)
  /-- `(%rax)` -/
  | indirect (register : Register)
  /-- `-16(%rbp)` -/
  | displaced (register : Register) (displacement : Int)
  /-- `label(%rip)` -/
  | relative (symbol : String)
  deriving DecidableEq, Repr

namespace Operand

/-- All of a register. -/
def quad (register : Register) : Operand := .register register .quad

/-- What lies at this offset from the frame pointer. -/
def frame (offset : Int) : Operand := .displaced .rbp offset

/-- Whether the operand names a place in the code, rather than something that holds its address. -/
def isDirectTarget : Operand → Bool
  | .symbol _ => true
  | _ => false

end Operand

/-- The operations of the machine that are used. -/
inductive Mnemonic where
  | mov
  | lea
  | push
  | pop
  | add
  | sub
  | xor
  | test
  | cmp
  | call
  | jmp
  | jne
  | je
  | ret
  | syscall
  deriving DecidableEq, Repr

namespace Mnemonic

/-- The mnemonic as the assembler reads it, without a size. -/
def name : Mnemonic → String
  | .mov => "mov"
  | .lea => "lea"
  | .push => "push"
  | .pop => "pop"
  | .add => "add"
  | .sub => "sub"
  | .xor => "xor"
  | .test => "test"
  | .cmp => "cmp"
  | .call => "call"
  | .jmp => "jmp"
  | .jne => "jne"
  | .je => "je"
  | .ret => "ret"
  | .syscall => "syscall"

/-- Whether an instruction goes elsewhere. A target that is not named directly is then marked. -/
def isBranch : Mnemonic → Bool
  | .call | .jmp | .jne | .je => true
  | _ => false

end Mnemonic

/-- An operation with its operands, sources first. -/
structure Instruction where
  mnemonic : Mnemonic
  size : Option Size
  operands : List Operand
  deriving DecidableEq, Repr

namespace Instruction

/-- Copies a quad word. -/
def movq (source destination : Operand) : Instruction := ⟨.mov, some .quad, [source, destination]⟩

/-- Brings an address into a register. -/
def leaq (source : Operand) (destination : Register) : Instruction := ⟨.lea, some .quad, [source, .quad destination]⟩

/-- Pushes a quad word. -/
def pushq (operand : Operand) : Instruction := ⟨.push, some .quad, [operand]⟩

/-- Pops a quad word into a register. -/
def popq (register : Register) : Instruction := ⟨.pop, some .quad, [.quad register]⟩

/-- Adds an amount to a register. -/
def addq (amount : Int) (register : Register) : Instruction := ⟨.add, some .quad, [.immediate amount, .quad register]⟩

/-- Takes an amount from a register. -/
def subq (amount : Int) (register : Register) : Instruction := ⟨.sub, some .quad, [.immediate amount, .quad register]⟩

/-- Clears a register through its lower half. -/
def zero (register : Register) : Instruction := ⟨.xor, some .long, [.register register .long, .register register .long]⟩

def call (target : Operand) : Instruction := ⟨.call, none, [target]⟩

def jmp (label : String) : Instruction := ⟨.jmp, none, [.symbol label]⟩

def ret : Instruction := ⟨.ret, none, []⟩

/-- Goes to `positive` if the lowest byte of the register is not zero, and to `negative` otherwise. -/
def branchIfSet (register : Register) (positive negative : String) : List Instruction :=
  [⟨.test, some .byte, [.register register .byte, .register register .byte]⟩, ⟨.jne, none, [.symbol positive]⟩,
    jmp negative]

/-- Saves the caller's frame pointer and starts a frame. -/
def openFrame : List Instruction := [pushq (.quad .rbp), movq (.quad .rsp) (.quad .rbp)]

/-- Gives up the frame and returns to the caller. -/
def closeFrame : List Instruction := [movq (.quad .rbp) (.quad .rsp), popq .rbp, ret]

/-- The number of the system call that ends the process. -/
def exitCall : Int := 60

/-- Ends the process with the exit code in `rdi`. -/
def exitProcess : List Instruction := [movq (.immediate exitCall) (.quad .rax), ⟨.syscall, none, []⟩]

end Instruction

end TagAsm.Asm
