import TagAsm.Asm.Instruction

/-!
# Assembly units

What is emitted for one program: the symbols that others have to provide, and five sections of labels, code and data.
-/

namespace TagAsm.Asm

/-- Bytes that are laid down as they are. -/
inductive Data where
  /-- The bytes of a text, without an end mark. -/
  | ascii (text : String)
  | quad (value : Int)
  /-- The address of a label. -/
  | quadSymbol (symbol : String)
  | long (value : Int)
  deriving DecidableEq, Repr

/-- One line of a section. -/
inductive Item where
  | label (name : String)
  /-- Makes a symbol visible to others. -/
  | exported (name : String)
  | instruction (instruction : Instruction)
  | comment (text : String)
  | data (data : Data)
  deriving DecidableEq, Repr

namespace Item

/-- Instructions as lines of a section. -/
def code (instructions : List Instruction) : List Item := instructions.map .instruction

/-- A label that others can see. -/
def exportedLabel (name : String) : List Item := [.exported name, .label name]

/-- The instructions among the lines of a section. -/
def instructions (items : List Item) : List Instruction :=
  items.filterMap fun
    | .instruction op => some op
    | _ => none

end Item

/-- A set that remembers the order in which its members came. -/
def insertNew (names : List String) (name : String) : List String := if name ∈ names then names else names ++ [name]

/-- Everything that is emitted for one program. -/
structure AssemblyUnit where
  /-- The symbols that are defined elsewhere, in the order of their first use. -/
  externs : List String
  rodata : List Item
  text : List Item
  /-- The tables of lines, of variables, and of the names in them. -/
  line : List Item
  info : List Item
  strings : List Item
  deriving DecidableEq, Repr

namespace AssemblyUnit

def empty : AssemblyUnit := ⟨[], [], [], [], [], []⟩

/-- The sections in the order in which they are written, each with the directive that starts it. -/
def sections (unit : AssemblyUnit) : List (String × List Item) :=
  [(".section .rodata", unit.rodata), (".text", unit.text), (".section .tagc_line,\"\",@progbits", unit.line),
    (".section .tagc_info,\"\",@progbits", unit.info), (".section .tagc_str,\"\",@progbits", unit.strings)]

end AssemblyUnit

end TagAsm.Asm
