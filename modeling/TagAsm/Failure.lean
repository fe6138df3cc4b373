import TagAsm.Diagnostic

/-!
# Failures

What ends a compilation for good. Problems with single constructs are diagnostics; a failure carries them only once they were
the reason to stop.
-/

namespace TagAsm

/-- Why there is no output. -/
inductive Failure where
  /-- A file could not be read, and why. -/
  | unreadable (path reason : String)
  /-- A file could not be written, and why. -/
  | unwritable (path reason : String)
  /-- The input is not a program. -/
  | malformed
  /-- A stage left errors behind. -/
  | halted (stage : Stage) (diagnostics : Diagnostics)
  /-- Another program failed, and why. -/
  | tool (program detail : String)
  deriving DecidableEq, Repr

/-- The failure in words. -/
def Failure.message : Failure → String
  | .unreadable path reason => "failed to read `" ++ path ++ "`: " ++ reason
  | .unwritable path reason => "failed to write `" ++ path ++ "`: " ++ reason
  | .malformed => "malformed HIR input"
  | .halted stage diagnostics =>
    "compilation halted after " ++ stage.name ++ " with " ++ toString diagnostics.errorCount ++ " error(s)"
  | .tool program detail => "`" ++ program ++ "` failed: " ++ detail

end TagAsm
