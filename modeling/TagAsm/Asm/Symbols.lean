import TagAsm.Abi

/-!
# Symbols

The names that compiled code goes by. Names of native functions are kept to the letter; all other names are reduced to
characters that the assembler accepts, and numbered where two would be the same. Strings and class initializers get their
names when they are first asked for.
-/

namespace TagAsm.Asm

open TagAsm.Flow (SubroutineId)

/-- The symbol at which a process starts. -/
def startSymbol : String := "_start"

/-- Puts an underscore in the place of every character that a symbol cannot hold. -/
def mangle (name : String) : String :=
  String.ofList (name.toList.map fun c => if c.isAlphanum || c = '_' then c else '_')

/-- A label that only the code of `symbol` uses. -/
def localLabel (symbol role : String) : String := ".L" ++ symbol ++ "." ++ role

/-- The names to try for `base`, the bare name first. -/
def candidate (base : String) : Nat → String
  | 0 => base
  | suffix + 1 => base ++ "." ++ toString (suffix + 1)

/-- The first candidate that is not taken. One of the first `taken.length + 1` is free. -/
def freeName (taken : List String) (base : String) : String :=
  (((List.range (taken.length + 1)).map (candidate base)).find? (· ∉ taken)).getD base

/-- The symbols that were handed out. -/
structure SymbolTable where
  /-- The symbol of each subroutine. -/
  subroutines : Table String
  /-- The contents of each string, in the order of first use. -/
  strings : Table String
  initializers : List (TypeId × String)
  /-- The methods that were referred to. -/
  methods : List SubroutineId
  /-- The names that are not to be defined again. -/
  taken : List String
  deriving DecidableEq, Repr

namespace SymbolTable

/-- The name that a subroutine would like to have. -/
def baseName (program : Flow.Program) (subroutine : Flow.Subroutine) : Except Fault String := do
  match subroutine.owner with
  | some owner => return mangle (← program.typeName owner) ++ "." ++ mangle subroutine.symbol.name
  | none => return mangle subroutine.symbol.name

/-- The name under which a native library knows a subroutine, if it is native. -/
def nativeName? (subroutine : Flow.Subroutine) : Option String :=
  match subroutine.kind with
  | .imported _ (some entryPoint) => some entryPoint
  | _ => if subroutine.isForeign then some subroutine.symbol.name else none

/-- Names one more subroutine. Native names are neither checked nor taken. -/
def nameSubroutine (program : Flow.Program) (acc : Table String × List String) (subroutine : Flow.Subroutine) :
    Except Fault (Table String × List String) := do
  let (names, taken) := acc
  match nativeName? subroutine with
  | some name => return (names.push name, taken)
  | none =>
    let name := freeName taken (← baseName program subroutine)
    return (names.push name, name :: taken)

/-- Names the subroutines of a program. The reserved names and the start symbol are taken from the beginning. -/
def ofProgram (program : Flow.Program) (reserved : List String) : Except Fault SymbolTable := do
  let (subroutines, taken) ← program.subroutines.foldlM (nameSubroutine program) ([], startSymbol :: reserved)
  return ⟨subroutines, [], [], [], taken⟩

/-- The symbol of a subroutine. -/
def subroutine? (table : SymbolTable) (id : SubroutineId) : Option String := table.subroutines[id]?

/-- The symbol of the string with this number. -/
def stringName (id : Nat) : String := ".Lstr" ++ toString id

/-- The symbol of a string. Equal strings share one. -/
def string (table : SymbolTable) (contents : String) : String × SymbolTable :=
  match table.strings.findIdx? (· = contents) with
  | some id => (stringName id, table)
  | none => (stringName table.strings.nextId, { table with strings := table.strings.push contents })

/-- Every string that was asked for, with its symbol. -/
def stringEntries (table : SymbolTable) : List (String × String) :=
  table.strings.entries.map fun (id, contents) => (contents, stringName id)

/-- The initializer of a class type, and whether it was asked for the first time. -/
def initializer (table : SymbolTable) (program : Flow.Program) (ty : TypeId) :
    Except Fault ((String × Bool) × SymbolTable) :=
  match table.initializers.lookup ty with
  | some name => .ok ((name, false), table)
  | none => do
    let name := freeName table.taken (mangle (← program.typeName ty) ++ ".init")
    return ((name, true),
      { table with initializers := table.initializers ++ [(ty, name)], taken := name :: table.taken })

/-- Marks a method as referred to, and tells whether that was the first time. -/
def referenceMethod (table : SymbolTable) (id : SubroutineId) : Bool × SymbolTable :=
  if id ∈ table.methods then (false, table) else (true, { table with methods := table.methods ++ [id] })

end SymbolTable

end TagAsm.Asm
