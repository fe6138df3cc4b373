import TagAsm.Failure
import TagAsm.Flow.Merge
import TagAsm.Lower.Program
import TagAsm.Select.Program

/-!
# Compiling programs

The stages in a row: lowering, merging blocks, selecting instructions. All of them report into one list. After each stage the
compilation halts if there are errors, unless errors are to be ignored; whoever started it then finds the list in the failure
and no longer in place.
-/

namespace TagAsm

/-- How a program is to be compiled. -/
structure Options where
  ignoreErrors : Bool
  debugInfo : Bool
  /-- Whether blocks are merged. -/
  optimize : Bool
  deriving DecidableEq, Repr

/-- Stops at the first stage with errors, writes no debug tables, and merges blocks. -/
def Options.standard : Options := ⟨false, false, true⟩

/-- A compilation adds to the diagnostics and may fail. -/
abbrev Compilation := ExceptT Failure (StateT Diagnostics (Except Fault))

namespace Compilation

/-- Runs a stage, which gets the diagnostics so far and returns them with its own. -/
def stage {α : Type} (run : Diagnostics → Except Fault (α × Diagnostics)) : Compilation α :=
  (StateT.mk run : StateT Diagnostics (Except Fault) α)

/-- Halts if there are errors, and hands over everything reported so far. -/
def checkpoint (options : Options) (stage : Stage) : Compilation Unit := do
  let diagnostics ← get
  if diagnostics.hasErrors && !options.ignoreErrors then
    set ([] : Diagnostics)
    throw (.halted stage diagnostics)

/-- Runs a compilation that starts without diagnostics. -/
def start {α : Type} (compilation : Compilation α) : Except Fault (Except Failure α × Diagnostics) :=
  compilation.run.run []

end Compilation

open Compilation

/-- Lowers a program, and merges its blocks if that is wanted. -/
def compileToFlow (options : Options) (program : Source.Program) : Compilation Flow.Program := do
  let lowered ← stage (Lower.lowerProgram program)
  checkpoint options .lowering
  if options.optimize then
    let merged ← stage fun diagnostics => return (← lowered.merge, diagnostics)
    checkpoint options .optimization
    return merged
  else
    return lowered

/-- The assembler source of a lowered program. -/
def assemble (colored debugInfo : Bool) (program : Flow.Program) (diagnostics : Diagnostics) :
    Except Fault (String × Diagnostics) := do
  let (unit, diagnostics) ← Select.selectProgram ⟨program, debugInfo, colored⟩ diagnostics
  return (unit.source, diagnostics)

/-- Compiles a program to assembler source. -/
def compileToAssembly (colored : Bool) (options : Options) (program : Source.Program) : Compilation String := do
  let lowered ← compileToFlow options program
  let source ← stage (assemble colored options.debugInfo lowered)
  checkpoint options .codegen
  return source

/-- Compiles a program to the listing of its flow program. -/
def compileToListing (colored : Bool) (options : Options) (program : Source.Program) : Compilation String := do
  let lowered ← compileToFlow options program
  stage fun diagnostics => return (← lowered.listing colored, diagnostics)

end TagAsm
