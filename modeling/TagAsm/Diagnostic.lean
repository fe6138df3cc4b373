import TagAsm.Location
import TagAsm.Text.Styled

/-!
# Diagnostics

What a stage has to say about the program. A stage does not stop at a construct it cannot handle: it adds a diagnostic to
the list it was given and skips that construct. Whether errors end the compilation is decided between the stages.
-/

namespace TagAsm

/-- How bad a diagnostic is. -/
inductive Severity where
  | note
  | warning
  | error
  deriving DecidableEq, Repr

/-- The stages of a compilation. -/
inductive Stage where
  | lowering
  | optimization
  | codegen
  | driver
  deriving DecidableEq, Repr

/-- What a diagnostic is about. -/
inductive DiagnosticKind where
  /-- A `break` outside of any loop. -/
  | unexpectedBreak
  | invalidAssignmentTarget
  | invalidIncrementTarget
  /-- A member access whose key is not a string literal. -/
  | nonLiteralMemberKey
  /-- A field or method whose name an inherited or sibling member has already. -/
  | duplicateMember
  /-- A class that is its own ancestor. -/
  | cyclicInheritance
  | wrongArgumentCount
  | missingArgument
  | unsupportedForeignType
  | unsupportedReturnType
  | unimplementedCast
  | unsupportedMakeTarget
  /-- A foreign subroutine used as a value. -/
  | foreignSubroutineAssignment
  /-- A foreign subroutine called in a way that the native convention cannot express. -/
  | foreignMisuse
  /-- Something that an earlier stage should have provided is not there. -/
  | missingSymbol
  | missingEntry
  deriving DecidableEq, Repr

/-- A severity in lower case. -/
def Severity.name : Severity → String
  | .note => "note"
  | .warning => "warning"
  | .error => "error"

/-- The style in which a severity is shown. -/
def Severity.style : Severity → Style
  | .note => .strong .cyan
  | .warning => .strong .yellow
  | .error => .strong .red

/-- A stage in lower case. -/
def Stage.name : Stage → String
  | .lowering => "lowering"
  | .optimization => "optimization"
  | .codegen => "codegen"
  | .driver => "driver"

/-- The code by which users refer to a kind of diagnostic. -/
def DiagnosticKind.name : DiagnosticKind → String
  | .unexpectedBreak => "unexpected-break"
  | .invalidAssignmentTarget => "invalid-assignment-target"
  | .invalidIncrementTarget => "invalid-increment-target"
  | .nonLiteralMemberKey => "non-literal-member-key"
  | .duplicateMember => "duplicate-member"
  | .cyclicInheritance => "cyclic-inheritance"
  | .wrongArgumentCount => "wrong-argument-count"
  | .missingArgument => "missing-argument"
  | .unsupportedForeignType => "unsupported-foreign-type"
  | .unsupportedReturnType => "unsupported-return-type"
  | .unimplementedCast => "unimplemented-cast"
  | .unsupportedMakeTarget => "unsupported-make-target"
  | .foreignSubroutineAssignment => "foreign-subroutine-assignment"
  | .foreignMisuse => "foreign-misuse"
  | .missingSymbol => "missing-symbol"
  | .missingEntry => "missing-entry"

/-- One remark about the program. -/
structure Diagnostic where
  severity : Severity
  stage : Stage
  kind : DiagnosticKind
  location : Location
  message : String
  deriving DecidableEq, Repr

namespace Diagnostic

/-- A diagnostic that ends the compilation unless errors are ignored. -/
def error (stage : Stage) (kind : DiagnosticKind) (location : Location) (message : String) : Diagnostic :=
  ⟨.error, stage, kind, location, message⟩

/-- A diagnostic that never ends the compilation. -/
def warning (stage : Stage) (kind : DiagnosticKind) (location : Location) (message : String) : Diagnostic :=
  ⟨.warning, stage, kind, location, message⟩

/-- Whether a diagnostic is an error. -/
def isError (diagnostic : Diagnostic) : Bool := diagnostic.severity = .error

/-- The name of the file that a diagnostic points to. -/
def fileName (files : List SourceFile) (diagnostic : Diagnostic) : String :=
  match diagnostic.location.file.bind (files[·]?) with
  | some file => file.origin.name
  | none => "<unknown>"

/-- The diagnostic as shown to the user: severity, stage, kind and message on the first line, the position below. -/
def render (colored : Bool) (files : List SourceFile) (diagnostic : Diagnostic) : String :=
  diagnostic.severity.style.paint colored diagnostic.severity.name
    ++ Style.bolded.paint colored ("[" ++ diagnostic.stage.name ++ "/" ++ diagnostic.kind.name ++ "]")
    ++ ": " ++ diagnostic.message ++ "\n  " ++ Color.blue.paint colored "-->" ++ " "
    ++ diagnostic.fileName files ++ ":" ++ toString diagnostic.location.line.toNat
    ++ ":" ++ toString diagnostic.location.column.toNat

end Diagnostic

/-- The diagnostics of a compilation, oldest first. -/
abbrev Diagnostics := List Diagnostic

namespace Diagnostics

/-- How many of the diagnostics are errors. -/
def errorCount (diagnostics : Diagnostics) : Nat := diagnostics.countP Diagnostic.isError

/-- Whether any of the diagnostics is an error. -/
def hasErrors (diagnostics : Diagnostics) : Bool := 0 < diagnostics.errorCount

end Diagnostics

end TagAsm
