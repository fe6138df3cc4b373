/-!
# Source files and positions

A position is a file with a line and a column, both counted from one. Line zero, or no file, means that the position is not
known.
-/

namespace TagAsm

/-- Where the text of a source file came from. -/
inductive Origin where
  | memory
  | file (path : String)
  deriving DecidableEq, Repr

/-- The name under which diagnostics show a file. -/
def Origin.name : Origin → String
  | .memory => "<memory>"
  | .file path => path

/-- A file that the program was written in. -/
structure SourceFile where
  origin : Origin
  deriving DecidableEq, Repr

/-- The position of a construct in one of the program's files. -/
structure Location where
  file : Option Nat
  line : UInt32
  column : UInt32
  deriving DecidableEq, Repr

namespace Location

/-- The position of constructs that stand in no file. -/
def unknown : Location := ⟨none, 0, 0⟩

/-- A position is known if it has a file and a line. -/
def isKnown (location : Location) : Bool := location.file.isSome && location.line != 0

end Location

/-- A name together with the position where it was declared. -/
structure Symbol where
  name : String
  location : Location
  deriving DecidableEq, Repr

end TagAsm
