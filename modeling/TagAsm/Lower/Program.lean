import TagAsm.Lower.Classes
import TagAsm.Lower.Stmt

/-!
# Lowering programs

Functions become subroutines of the same number. All bodies share one pool of literals and one list of diagnostics, and the
classes come after the last body.
-/

namespace TagAsm.Lower

open TagAsm.Flow

/-- The type of the class that lists the function among its methods. If several do, the last one has it. -/
def ownerOf (program : Source.Program) (id : Source.FunctionId) : Option TypeId :=
  (program.classes.reverse.find? fun decl => id ∈ decl.methods).map (·.ty)

/-- The return type of a function. A function whose type is no function type stands for its own return type. -/
def returnTypeOf (program : Source.Program) (function : Source.Function) : Except Fault TypeId := do
  match ← program.types.signature function.ty with
  | some (_, returnType) => return returnType
  | none => return function.ty

/-- What the functions lowered so far have added to the program. -/
structure Lowering where
  subroutines : Table Subroutine
  literals : Table Literal
  diagnostics : Diagnostics
  deriving DecidableEq, Repr

/-- Lowers the body of a function. Code after a break or a return never runs and is dropped. -/
def lowerBody (program : Source.Program) (function : Source.Function) (parameters locals : List Source.Variable)
    (body : Source.Stmt) (lowering : Lowering) : Except Fault (Body × Lowering) := do
  let returnType ← returnTypeOf program function
  let (graph, draft) :=
    draftBody function.symbol.name returnType parameters locals body lowering.literals lowering.diagnostics
  let graph ← graph.prune
  return (graph, { lowering with literals := draft.literals, diagnostics := draft.diagnostics })

/-- Lowers what a function consists of. -/
def lowerKind (program : Source.Program) (function : Source.Function) (lowering : Lowering) :
    Except Fault (SubroutineKind × Lowering) := do
  match function.kind with
  | .defined parameters locals body =>
    let (graph, lowering) ← lowerBody program function parameters locals body lowering
    return (.defined graph, lowering)
  | .declared => return (.declared, lowering)
  | .imported library entryPoint => return (.imported library entryPoint, lowering)

/-- Lowers one function. -/
def lowerFunction (program : Source.Program) (lowering : Lowering) (entry : Source.FunctionId × Source.Function) :
    Except Fault Lowering := do
  let (id, function) := entry
  let (kind, lowering) ← lowerKind program function lowering
  let subroutine : Subroutine := ⟨function.symbol, function.ty, function.linkage, ownerOf program id, kind⟩
  return { lowering with subroutines := lowering.subroutines.push subroutine }

/-- The functions that satisfy a test, in order. -/
def functionsWhere (program : Source.Program) (test : Source.Function → Bool) : List SubroutineId :=
  (program.functions.entries.filter fun (_, function) => test function).map Prod.fst

/-- Whether a function has a body. -/
def hasBody (function : Source.Function) : Bool :=
  match function.kind with
  | .defined .. => true
  | .declared | .imported .. => false

/-- Lowers a program. What could not be lowered is reported at the end of the diagnostics. -/
def lowerProgram (program : Source.Program) (diagnostics : Diagnostics) : Except Fault (Flow.Program × Diagnostics) := do
  let lowering ← program.functions.entries.foldlM (lowerFunction program) ⟨[], [], diagnostics⟩
  let (classes, diagnostics) ← lowerClasses program lowering.diagnostics
  let lowered : Flow.Program :=
    { files := program.files
      types := program.types
      classNames := program.classes.map (·.symbol.name)
      subroutines := lowering.subroutines
      defined := functionsWhere program fun function => hasBody function && !function.isMethod
      declared := functionsWhere program fun function => match function.kind with | .declared => true | _ => false
      imported := functionsWhere program fun function => match function.kind with | .imported .. => true | _ => false
      methods := functionsWhere program fun function => hasBody function && function.isMethod
      classes := classes
      literals := lowering.literals
      entry := program.entry }
  return (lowered, diagnostics)

end TagAsm.Lower
