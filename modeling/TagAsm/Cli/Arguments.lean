/-!
# Arguments

The command line. Arguments are read from left to right, and the first one that cannot be read decides. Switches may stand
before or after the input. Short switches may be joined, the value of a switch may be attached to it, and `--` makes
everything after it an input. A switch may be given once, apart from the one that makes the program talk more.
-/

namespace TagAsm.Cli

/-- What a compilation writes. -/
inductive Emit where
  | assembly
  | listing
  deriving DecidableEq, Repr

/-- Switches that take no value. -/
inductive Flag where
  | debugInfo
  | ignoreErrors
  | noOptimize
  | build
  | verbose
  | quiet
  | help
  | version
  deriving DecidableEq, Repr

/-- Switches that take a value. -/
inductive Setting where
  | output
  | emit
  | runtime
  deriving DecidableEq, Repr

/-- An argument that changes what the program does. -/
inductive Switch where
  | flag (flag : Flag)
  | setting (setting : Setting)
  deriving DecidableEq, Repr

namespace Switch

/-- The switch with this letter. -/
def ofLetter? : Char → Option Switch
  | 'o' => some (.setting .output)
  | 'g' => some (.flag .debugInfo)
  | 'v' => some (.flag .verbose)
  | 'q' => some (.flag .quiet)
  | 'h' => some (.flag .help)
  | 'V' => some (.flag .version)
  | _ => none

/-- The switch with this name. -/
def ofName? : String → Option Switch
  | "output" => some (.setting .output)
  | "emit" => some (.setting .emit)
  | "ignore-errors" => some (.flag .ignoreErrors)
  | "no-optimize" => some (.flag .noOptimize)
  | "build" => some (.flag .build)
  | "runtime" => some (.setting .runtime)
  | "verbose" => some (.flag .verbose)
  | "quiet" => some (.flag .quiet)
  | "help" => some (.flag .help)
  | "version" => some (.flag .version)
  | _ => none

end Switch

/-- A flag as users write it. -/
def Flag.text : Flag → String
  | .debugInfo => "-g"
  | .ignoreErrors => "--ignore-errors"
  | .noOptimize => "--no-optimize"
  | .build => "--build"
  | .verbose => "--verbose"
  | .quiet => "--quiet"
  | .help => "--help"
  | .version => "--version"

/-- A setting as users write it. -/
def Setting.text : Setting → String
  | .output => "--output <OUTPUT>"
  | .emit => "--emit <EMIT>"
  | .runtime => "--runtime <RUNTIME>"

/-- What is wrong with a command line. -/
inductive UsageError where
  | unknownSwitch (argument : String)
  | missingValue (setting : Setting)
  | unexpectedValue (flag : Flag) (value : String)
  | invalidValue (setting : Setting) (value : String)
  | repeatedFlag (flag : Flag)
  | repeatedSetting (setting : Setting)
  | missingInput
  | emptyInput
  | extraInput (argument : String)
  | runtimeWithoutBuild
  | inputNotFile (path : String)
  | buildOfListing
  deriving DecidableEq, Repr

/-- The error in words. -/
def UsageError.message : UsageError → String
  | .unknownSwitch argument => "unexpected argument '" ++ argument ++ "' found"
  | .missingValue setting => "a value is required for '" ++ setting.text ++ "' but none was supplied"
  | .unexpectedValue flag value => "unexpected value '" ++ value ++ "' for '" ++ flag.text ++ "' found"
  | .invalidValue setting value => "invalid value '" ++ value ++ "' for '" ++ setting.text ++ "'"
  | .repeatedFlag flag => "the argument '" ++ flag.text ++ "' cannot be used multiple times"
  | .repeatedSetting setting => "the argument '" ++ setting.text ++ "' cannot be used multiple times"
  | .missingInput => "the following required arguments were not provided: <INPUT>"
  | .emptyInput => "a value is required for '<INPUT>' but none was supplied"
  | .extraInput argument => "unexpected argument '" ++ argument ++ "' found"
  | .runtimeWithoutBuild => "the following required arguments were not provided: --build"
  | .inputNotFile path => "Input path '" ++ path ++ "' is not a file!"
  | .buildOfListing => "--build can only link assembly, not MIR"

/-- Why reading the arguments ended before the last one. -/
inductive Stop where
  | usage (error : UsageError)
  | help
  | version
  deriving DecidableEq, Repr

/-- The arguments read so far. -/
structure Given where
  input : Option String
  flags : List Flag
  settings : List (Setting × String)
  deriving DecidableEq, Repr

namespace Given

/-- Before the first argument. -/
def start : Given := ⟨none, [], []⟩

/-- The value of a setting. -/
def value? (given : Given) (setting : Setting) : Option String := given.settings.lookup setting

/-- Adds a flag. Asking for help or for the version needs nothing else. -/
def addFlag (given : Given) : Flag → Except Stop Given
  | .help => .error .help
  | .version => .error .version
  | .verbose => .ok given
  | flag =>
    if flag ∈ given.flags then .error (.usage (.repeatedFlag flag)) else .ok { given with flags := flag :: given.flags }

/-- Whether a setting can have this value: a path is not empty, and there are two kinds of output. -/
def accepts : Setting → String → Bool
  | .output, value | .runtime, value => value ≠ ""
  | .emit, value => value = "asm" || value = "mir"

/-- Adds a setting. -/
def addSetting (given : Given) (setting : Setting) (value : String) : Except Stop Given :=
  if !accepts setting value then .error (.usage (.invalidValue setting value))
  else if (given.value? setting).isSome then .error (.usage (.repeatedSetting setting))
  else .ok { given with settings := (setting, value) :: given.settings }

def addInput (given : Given) (path : String) : Except Stop Given :=
  if given.input.isSome then .error (.usage (.extraInput path))
  else if path = "" then .error (.usage .emptyInput)
  else .ok { given with input := some path }

end Given

/-- Whether an argument is a switch and no value. A single dash is a value. -/
def isSwitch (argument : String) : Bool :=
  match argument.toList with
  | '-' :: _ :: _ => true
  | _ => false

/-- The name of a long switch, and the value behind an equals sign. -/
def splitValue (text : List Char) : String × Option String :=
  match text.span (· ≠ '=') with
  | (name, '=' :: value) => (String.ofList name, some (String.ofList value))
  | (name, _) => (String.ofList name, none)

/-- Reads joined short switches. If the last of them takes a value that is not attached, it is returned. -/
def readLetters (given : Given) : List Char → Except Stop (Given × Option Setting)
  | [] => .ok (given, none)
  | letter :: rest =>
    match Switch.ofLetter? letter with
    | some (.flag flag) => do readLetters (← given.addFlag flag) rest
    | some (.setting setting) =>
      match rest with
      | [] => .ok (given, some setting)
      | '=' :: value | value => do return (← given.addSetting setting (String.ofList value), none)
    | none => .error (.usage (.unknownSwitch ("-" ++ String.singleton letter)))

/-- Reads one argument. If it is a switch whose value has to follow, that is returned. -/
def readArgument (given : Given) (argument : String) : Except Stop (Given × Option Setting) :=
  match argument.toList with
  | '-' :: '-' :: text =>
    match splitValue text with
    | (name, value) =>
      match Switch.ofName? name, value with
      | some (.flag flag), none => do return (← given.addFlag flag, none)
      | some (.flag flag), some value => .error (.usage (.unexpectedValue flag value))
      | some (.setting setting), some value => do return (← given.addSetting setting value, none)
      | some (.setting setting), none => .ok (given, some setting)
      | none, _ => .error (.usage (.unknownSwitch argument))
  | '-' :: letter :: letters => readLetters given (letter :: letters)
  | _ => do return (← given.addInput argument, none)

/-- Reads all arguments. -/
def readArguments (given : Given) : List String → Except Stop Given
  | [] => .ok given
  | "--" :: rest => rest.foldlM Given.addInput given
  | argument :: rest => do
    match ← readArgument given argument with
    | (given, none) => readArguments given rest
    | (given, some setting) =>
      match rest with
      | [] => .error (.usage (.missingValue setting))
      | value :: rest =>
        if isSwitch value then .error (.usage (.missingValue setting))
        else readArguments (← given.addSetting setting value) rest

/-- A complete command line. -/
structure Settings where
  input : String
  output : Option String
  emit : Emit
  debugInfo : Bool
  ignoreErrors : Bool
  optimize : Bool
  build : Bool
  deriving DecidableEq, Repr

/-- What the arguments ask for. Without another choice a compilation writes assembler source. -/
def Given.settled (given : Given) : Except Stop Settings :=
  match given.input with
  | none => .error (.usage .missingInput)
  | some input =>
    let isGiven := fun flag => decide (flag ∈ given.flags)
    if (given.value? .runtime).isSome && !isGiven .build then
      .error (.usage .runtimeWithoutBuild)
    else
      .ok {
        input
        output := given.value? .output
        emit := if given.value? .emit = some "mir" then .listing else .assembly
        debugInfo := isGiven .debugInfo
        ignoreErrors := isGiven .ignoreErrors
        optimize := !isGiven .noOptimize
        build := isGiven .build }

/-- Reads a command line. -/
def parseArguments (arguments : List String) : Except Stop Settings := do
  (← readArguments .start arguments).settled

end TagAsm.Cli
