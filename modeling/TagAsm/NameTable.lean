import TagAsm.Table

/-!
# Tables of names

A table that holds each name once. A name is known by its number, and numbers are handed out in the order in which names
come. Numbers have 32 bits, and what does not fit is cut off. Inserting is a look-up and, if that finds nothing, a second
look-up that adds what it does not find; the second look-up is what keeps the table free of duplicates when others insert in
between.
-/

namespace TagAsm

/-- Names by number. -/
structure NameTable where
  names : Table String
  deriving DecidableEq, Repr

namespace NameTable

def empty : NameTable := ⟨[]⟩

/-- The name with this number. -/
def get? (table : NameTable) (number : Nat) : Option String := table.names[number]?

/-- The number of a name. -/
def indexOf? (table : NameTable) (name : String) : Option Nat := (table.names.findIdx? (· = name)).map (· % UInt32.size)

/-- Adds a name that is not in the table, and yields its number. -/
def addIfAbsent (table : NameTable) (name : String) : Nat × NameTable :=
  match table.indexOf? name with
  | some number => (number, table)
  | none => (table.names.nextId % UInt32.size, ⟨table.names.push name⟩)

/-- The number of a name, which is in the table afterwards. -/
def insert (table : NameTable) (name : String) : Nat × NameTable :=
  match table.indexOf? name with
  | some number => (number, table)
  | none => table.addIfAbsent name

end NameTable

end TagAsm
