import TagAsm.Cli.Arguments
import TagAsm.Cli.Directory
import TagAsm.Cli.Help
import TagAsm.Compile
import TagAsm.Source.Decode
import TagAsm.Toolchain

/-!
# Running a command line

What the program does with its arguments: it reads a source program, compiles it, and writes the result. All that it needs
of its surroundings is a `Host`, so that it runs on real files as well as on a `Directory`.
-/

namespace TagAsm.Cli

/-- The files that a run can reach. A failure comes with its reason. -/
structure Host (m : Type → Type) where
  isFile : String → m Bool
  read : String → m (Except String ByteArray)
  write : String → ByteArray → m (Except String Unit)

/-- What a run leaves behind beside the files that it wrote. -/
structure Answer where
  code : UInt8
  output : String
  /-- What is reported, each on lines of its own. -/
  reports : List String
  deriving DecidableEq, Repr

/-- An answer that is only text. -/
def Answer.ofText (output : String) : Answer := ⟨0, output, []⟩

/-- The last report of a run that failed. -/
def failureReport (colored : Bool) (failure : Failure) : String :=
  (Style.strong .red).paint colored "error" ++ ": " ++ failure.message

/-- The source program in the contents of a file. -/
def decodeProgram (path : String) (contents : ByteArray) : Except Failure Source.Program :=
  match String.fromUTF8? contents with
  | none => .error (.unreadable path "stream did not contain valid UTF-8")
  | some text =>
    match Source.Program.parse? text with
    | none => .error .malformed
    | some program => .ok program

namespace Settings

/-- How the program is compiled. -/
def options (settings : Settings) : Options := ⟨settings.ignoreErrors, settings.debugInfo, settings.optimize⟩

/-- Whether the listing goes to a file. Such a run uses no colours from then on. -/
def listsToFile (settings : Settings) : Bool := settings.emit = .listing && settings.output.isSome && !settings.build

/-- Compiles a program to the text that the settings ask for. -/
def compile (settings : Settings) (colored : Bool) (program : Source.Program) : Compilation String :=
  match settings.emit with
  | .assembly => compileToAssembly colored settings.options program
  | .listing => compileToListing colored settings.options program

end Settings

variable {m : Type → Type} [Monad m]

/-- The name of the file that assembler source is kept in while an executable is made. -/
def sourceFile : String := "out.s"

/-- The name of the file that the assembled object is kept in. -/
def objectFile : String := "out.o"

/-- Puts the text of a compilation where it belongs. Other programs are out of reach, so an executable cannot be made. -/
def deliver (host : Host m) (settings : Settings) (text : String) : m (Except Failure String) := do
  if settings.build then
    return .error (.tool (Toolchain.assembler sourceFile objectFile).program Obstacle.missing.message)
  match settings.output with
  | none => return .ok text
  | some path =>
    match ← host.write path text.toUTF8 with
    | .ok () => return .ok ""
    | .error reason => return .error (.unwritable path reason)

/-- Compiles a program and reports what there is to report: the diagnostics first, and the failure last. -/
def compileAndReport (host : Host m) (colored : Bool) (settings : Settings) (program : Source.Program) :
    ExceptT Fault m Answer := do
  let (result, diagnostics) ← liftM (Compilation.start (settings.compile colored program))
  let reported := fun (diagnostics : Diagnostics) => diagnostics.map (·.render colored program.files)
  match result with
  | .error failure =>
    let halting := match failure with
      | .halted _ diagnostics => diagnostics
      | _ => []
    return ⟨1, "", reported diagnostics ++ reported halting ++ [failureReport colored failure]⟩
  | .ok text =>
    match ← (deliver host settings text : m (Except Failure String)) with
    | .ok output => return ⟨0, output, reported diagnostics⟩
    | .error failure => return ⟨1, "", reported diagnostics ++ [failureReport colored failure]⟩

/-- Reads the input and compiles it. -/
def runSettings (host : Host m) (colored : Bool) (settings : Settings) : ExceptT Fault m Answer := do
  let contents ← (host.read settings.input : m (Except String ByteArray))
  let program := do
    let contents ← contents.mapError (Failure.unreadable settings.input)
    decodeProgram settings.input contents
  match program with
  | .error failure => return ⟨1, "", [failureReport colored failure]⟩
  | .ok program => compileAndReport host (colored && !settings.listsToFile) settings program

/-- Runs the program with these arguments, unless they make no sense. -/
def run (host : Host m) (colored : Bool) (arguments : List String) : ExceptT Fault m (Except UsageError Answer) := do
  match parseArguments arguments with
  | .error (.usage error) => return .error error
  | .error .help => return .ok (.ofText (helpText colored))
  | .error .version => return .ok (.ofText versionText)
  | .ok settings =>
    if !(← (host.isFile settings.input : m Bool)) then
      return .error (.inputNotFile settings.input)
    if settings.build && settings.emit = .listing then
      return .error .buildOfListing
    return .ok (← runSettings host colored settings)

/-- A host whose files are those of a directory. -/
def Directory.host : Host (StateM Directory) where
  isFile path := return (← get).isFile path
  read path := return ((← get).read path).mapError Obstacle.message
  write path contents := do
    match (← get).write path contents with
    | .ok directory =>
      set directory
      return .ok ()
    | .error obstacle => return .error obstacle.message

end TagAsm.Cli
