/-!
# The toolchain

The commands that make an executable from assembler source: an assembler for 64 bit objects, and a linker.
-/

namespace TagAsm.Toolchain

/-- A command line of another program. -/
structure Command where
  program : String
  arguments : List String
  deriving DecidableEq, Repr

/-- What a program is given for a text. A NUL character would end an argument early, so a placeholder stands for a text that
holds one. -/
def argument (text : String) : String := if text.contains '\x00' then "<string-with-nul>" else text

/-- The command that gives these texts to a program. -/
def Command.ofTexts (program : String) (texts : List String) : Command := ⟨program, texts.map argument⟩

/-- The program and its arguments in a row. -/
def Command.words (command : Command) : List String := command.program :: command.arguments

/-- Assembles one source file. -/
def assembler (input output : String) : Command := .ofTexts "as" ["--64", "-o", output, input]

/-- Links one object, with the value library if its place is known. -/
def linker (input : String) (runtime : Option String) (output : String) : Command :=
  .ofTexts "ld" (["-o", output, input] ++ runtime.toList)

end TagAsm.Toolchain
