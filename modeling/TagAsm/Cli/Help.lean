import TagAsm.Text.Styled

/-!
# Help

What the program says about itself. The switches stand in a column as they are written, with their meanings beside them. With
colours on, headings are bold and underlined, and what is to be typed as it stands is bold.
-/

namespace TagAsm.Cli

/-- The name of the program. -/
def programName : String := "tagc"

/-- The name and version of the program. -/
def versionText : String := programName ++ " 0.1.0\n"

/-- A switch in the help text. -/
structure HelpEntry where
  letter : Option String
  name : Option String
  /-- What follows the switch: its value, or the sign that it can be repeated. -/
  trail : String
  meaning : String
  deriving DecidableEq, Repr

/-- All switches, in the order of the help text. -/
def helpEntries : List HelpEntry := [
  ⟨some "-o", some "--output", " <OUTPUT>", "Where to write the output; defaults to stdout, or `a.out` with --build"⟩,
  ⟨none, some "--emit", " <EMIT>", "[default: asm] [possible values: asm, mir]"⟩,
  ⟨some "-g", none, "", "Emit line and variable tables"⟩,
  ⟨none, some "--ignore-errors", "", "Keep compiling after a stage reported errors"⟩,
  ⟨none, some "--no-optimize", "", "Skip the block merge pass"⟩,
  ⟨none, some "--build", "", "Assemble and link an executable instead of printing assembly"⟩,
  ⟨none, some "--runtime", " <RUNTIME>", "Runtime library to link against with --build"⟩,
  ⟨some "-v", some "--verbose", "...", "Enable verbose logging (use multiple times for increased verbosity)"⟩,
  ⟨some "-q", some "--quiet", "", "Only log errors"⟩,
  ⟨some "-h", some "--help", "", "Print help"⟩,
  ⟨some "-V", some "--version", "", "Print version"⟩]

namespace HelpEntry

/-- The switch as it is written. Without a letter its name stands below the names of the others. -/
def spelling (entry : HelpEntry) (colored : Bool) : String :=
  let literal := Style.bolded.paint colored
  match entry.letter, entry.name with
  | some letter, some name => literal letter ++ ", " ++ literal name ++ entry.trail
  | some letter, none => literal letter ++ entry.trail
  | none, some name => "    " ++ literal name ++ entry.trail
  | none, none => entry.trail

/-- The columns that the spelling takes. Colours take none. -/
def width (entry : HelpEntry) : Nat := (entry.spelling false).length

/-- The line of a switch, with its meaning two columns behind the widest spelling. -/
def line (colored : Bool) (widest : Nat) (entry : HelpEntry) : String :=
  "  " ++ entry.spelling colored ++ "".pushn ' ' (widest - entry.width + 2) ++ entry.meaning ++ "\n"

end HelpEntry

/-- A heading of the help text. -/
def heading (colored : Bool) (text : String) : String :=
  if colored then Style.bolded.opening ++ "\x1b[4m" ++ text ++ Style.closing else text

/-- How the program is called, and what the switches mean. -/
def helpText (colored : Bool) : String :=
  let widest := helpEntries.foldl (fun widest entry => max widest entry.width) 0
  "Tagged-value language compiler back end (HIR to MIR to x86-64 assembly)\n\n" ++
  heading colored "Usage:" ++ " " ++ Style.bolded.paint colored programName ++ " [OPTIONS] <INPUT>\n\n" ++
  heading colored "Arguments:" ++ "\n" ++
  "  <INPUT>  Resolved HIR of the program, as JSON\n\n" ++
  heading colored "Options:" ++ "\n" ++
  String.join (helpEntries.map (HelpEntry.line colored widest))

end TagAsm.Cli
