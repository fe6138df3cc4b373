import TagAsm.Asm.Unit
import TagAsm.Location
import TagAsm.Table

/-!
# Debug tables

Three tables that describe the code: which source line a label belongs to, which variables a subroutine keeps where, and the
names that the other two refer to by number.
-/

namespace TagAsm.Asm

/-- The line of the source that the code at a label was made from. -/
structure LineEntry where
  label : String
  file : Nat
  line : UInt32
  deriving DecidableEq, Repr

/-- Whether a variable is a parameter. -/
inductive VariableRole where
  | parameter
  | localVariable
  deriving DecidableEq, Repr

/-- The number of a role in the table. -/
def VariableRole.number : VariableRole → Int
  | .parameter => 0
  | .localVariable => 1

/-- Where a variable is kept. -/
structure VariableEntry where
  offset : Int
  /-- The number of the variable's name in the table of names. -/
  name : Nat
  role : VariableRole
  deriving DecidableEq, Repr

/-- The extent of a subroutine, and its variables. -/
structure InfoEntry where
  start : String
  stop : String
  name : Nat
  places : List VariableEntry
  deriving DecidableEq, Repr

/-- The three tables. -/
structure DebugTables where
  /-- The names, in the order of first use. -/
  strings : Table String
  lines : List LineEntry
  infos : List InfoEntry
  deriving DecidableEq, Repr

namespace DebugTables

def empty : DebugTables := ⟨[], [], []⟩

/-- The number of a name. -/
def string (tables : DebugTables) (name : String) : Nat × DebugTables :=
  match tables.strings.findIdx? (· = name) with
  | some id => (id, tables)
  | none => (tables.strings.nextId, { tables with strings := tables.strings.push name })

/-- The entry of a label, unless the position is unknown. -/
def lineEntry? (label : String) (location : Location) : Option LineEntry :=
  if location.isKnown then location.file.map fun file => ⟨label, file, location.line⟩ else none

/-- Adds entries to the table of lines. -/
def addLines (tables : DebugTables) (lines : List LineEntry) : DebugTables :=
  { tables with lines := tables.lines ++ lines }

/-- Adds an entry to the table of subroutines. -/
def addInfo (tables : DebugTables) (info : InfoEntry) : DebugTables := { tables with infos := tables.infos ++ [info] }

/-- An entry of the table of lines. -/
def lineItems (entry : LineEntry) : List Item :=
  [.data (.quadSymbol entry.label), .data (.long entry.file), .data (.long entry.line.toNat)]

/-- An entry for a variable. -/
def variableItems (entry : VariableEntry) : List Item :=
  [.data (.quad entry.offset), .data (.long entry.name), .data (.long entry.role.number)]

/-- An entry of the table of subroutines. -/
def infoItems (entry : InfoEntry) : List Item :=
  [.data (.quadSymbol entry.start), .data (.quadSymbol entry.stop), .data (.long entry.name),
    .data (.long entry.places.length)] ++ entry.places.flatMap variableItems

/-- A name: its length in bytes, then its bytes. -/
def stringItems (name : String) : List Item := [.data (.long name.utf8ByteSize), .data (.ascii name)]

/-- Puts the tables into the sections for them. -/
def emit (tables : DebugTables) (unit : AssemblyUnit) : AssemblyUnit :=
  { unit with
    line := unit.line ++ tables.lines.flatMap lineItems
    info := unit.info ++ tables.infos.flatMap infoItems
    strings := unit.strings ++ tables.strings.flatMap stringItems }

end DebugTables

end TagAsm.Asm
