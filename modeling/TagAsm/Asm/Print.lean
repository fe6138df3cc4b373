import TagAsm.Asm.Unit

/-!
# The text of assembly units

Assembler source in AT&T syntax: one line per item, sections separated by an empty line, empty sections left out.
-/

namespace TagAsm.Asm

/-- A byte between the quotes of a string directive: printable characters stand for themselves, quotes and backslashes are
escaped, and all else is written in octal. -/
def escapeByte (byte : UInt8) : List Char :=
  if byte = 0x22 then ['\\', '\x22']
  else if byte = 0x5c then ['\\', '\\']
  else if byte = 0x0a then ['\\', 'n']
  else if byte = 0x09 then ['\\', 't']
  else if 0x20 ≤ byte ∧ byte ≤ 0x7e then [Char.ofUInt8 byte]
  else
    ['\\', Nat.digitChar (byte.toNat / 64), Nat.digitChar (byte.toNat / 8 % 8), Nat.digitChar (byte.toNat % 8)]

/-- A text between the quotes of a string directive. -/
def escapeText (text : String) : String := String.ofList (text.toUTF8.toList.flatMap escapeByte)

/-- A displacement, which is left out if it is zero. -/
def displacementText (displacement : Int) : String := if displacement = 0 then "" else toString displacement

/-- An operand as the assembler reads it. -/
def Operand.text : Operand → String
  | .register reg width => "%" ++ reg.name width
  | .immediate value => "$" ++ toString value
  | .symbol target => target
  | .indexed base index scale displacement =>
    let base :=
      match base with
      | some base => "%" ++ base.quadName
      | none => ""
    displacementText displacement ++ "(" ++ base ++ ", %" ++ index.quadName ++ ", " ++ toString scale.toNat ++ ")"
  | .indirect reg => "(%" ++ reg.quadName ++ ")"
  | .displaced reg displacement => displacementText displacement ++ "(%" ++ reg.quadName ++ ")"
  | .relative target => target ++ "(%rip)"

/-- An operand of an instruction. The address of a branch target that is not named directly is marked with a star. -/
def Instruction.operandText (mnemonic : Mnemonic) (operand : Operand) : String :=
  (if mnemonic.isBranch && !operand.isDirectTarget then "*" else "") ++ operand.text

/-- An instruction as the assembler reads it. -/
def Instruction.text (instruction : Instruction) : String :=
  let mnemonic := instruction.mnemonic.name ++ (instruction.size.map Size.letter).getD ""
  if instruction.operands.isEmpty then mnemonic
  else mnemonic ++ " " ++ ", ".intercalate (instruction.operands.map (operandText instruction.mnemonic))

/-- A piece of data as the assembler reads it. -/
def Data.text : Data → String
  | .ascii text => ".ascii \"" ++ escapeText text ++ "\""
  | .quad value => ".quad " ++ toString value
  | .quadSymbol target => ".quad " ++ target
  | .long value => ".long " ++ toString value

/-- The line of an item. -/
def Item.line : Item → String
  | .label name => name ++ ":\n"
  | .exported name => "\t.globl " ++ name ++ "\n"
  | .instruction op => "\t" ++ op.text ++ "\n"
  | .comment text => "\t# " ++ text ++ "\n"
  | .data contents => "\t" ++ contents.text ++ "\n"

/-- A section: its directive, then its items. -/
def sectionText (directive : String) (items : List Item) : String :=
  "\t" ++ directive ++ "\n" ++ String.join (items.map Item.line)

/-- A unit as the assembler reads it. -/
def AssemblyUnit.source (unit : AssemblyUnit) : String :=
  let externs := unit.externs.map fun name => "\t.extern " ++ name ++ "\n"
  let sections := unit.sections.filterMap fun (directive, items) =>
    if items.isEmpty then none else some (sectionText directive items)
  "\n".intercalate ((if externs.isEmpty then [] else [String.join externs]) ++ sections)

end TagAsm.Asm
