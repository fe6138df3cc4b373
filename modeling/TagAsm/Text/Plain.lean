/-!
# Plain text

What is left of a text for a terminal when everything but the text is taken out: control characters other than the line
feed, and escape sequences with all they enclose. The reader is a small machine. In each mode a character is shown or
dropped, and the mode after it follows from the two.
-/

namespace TagAsm.Plain

/-- What the reader is in the middle of. -/
inductive Mode where
  /-- Text to be shown. -/
  | text
  /-- Right after the escape character. -/
  | escape
  /-- An escape sequence that goes on with its last character. -/
  | escapeTail
  /-- A control sequence, up to its final character. -/
  | control
  /-- A command for the window title, up to the bell. -/
  | title
  /-- A device string before, in, and after its parameters. -/
  | deviceEntry
  | deviceParameters
  | deviceTail
  /-- The contents of a device string. -/
  | device
  /-- A string that nobody reads. -/
  | ignored
  deriving DecidableEq, Repr

/-- The line feed is the one control character that is kept. -/
def keptControl (c : Char) : List Char := if c = '\n' then ['\n'] else []

/-- The bytes of the character's encoding after the first. -/
def laterBytes (c : Char) : List Nat :=
  let code := c.toNat
  if code < 0x80 then []
  else if code < 0x800 then [0x80 + code % 64]
  else if code < 0x10000 then [0x80 + code / 64 % 64, 0x80 + code % 64]
  else [0x80 + code / 4096 % 64, 0x80 + code / 64 % 64, 0x80 + code % 64]

/-- What is shown of the bytes that follow the end of a device string inside a character: such a byte is no text of its
own, so a replacement stands for it, unless it is a control code. -/
def strayBytes (bytes : List Nat) : List Char := (bytes.filter (0xa0 ≤ ·)).map fun _ => '�'

/-- The mode after a character, in every mode but `text`, and what is shown of the character. The escape character and the
two cancelling characters act alike in all modes and do not reach this function. -/
def advance (mode : Mode) (c : Char) : Mode × List Char :=
  let code := c.toNat
  match mode with
  | .text =>
    if code < 0x20 ∨ 0x80 ≤ code ∧ code ≤ 0x9f then (.text, keptControl c) else (.text, [c])
  | .escape =>
    if code < 0x20 then (.escape, keptControl c)
    else if code < 0x30 then (.escapeTail, [])
    else if c = '[' then (.control, [])
    else if c = ']' then (.title, [])
    else if c = 'P' then (.deviceEntry, [])
    else if c = 'X' ∨ c = '^' ∨ c = '_' then (.ignored, [])
    else if code < 0x7f then (.text, [])
    else (.escape, [])
  | .escapeTail =>
    if code < 0x20 then (.escapeTail, keptControl c)
    else if 0x30 ≤ code ∧ code < 0x7f then (.text, [])
    else (.escapeTail, [])
  | .control =>
    if code < 0x20 then (.control, keptControl c)
    else if 0x40 ≤ code ∧ code < 0x7f then (.text, [])
    else (.control, [])
  | .title => if code = 0x07 then (.text, []) else (.title, [])
  | .deviceEntry =>
    if code < 0x20 then (.deviceEntry, [])
    else if code < 0x30 then (.deviceTail, [])
    else if code < 0x40 then (.deviceParameters, [])
    else if code < 0x7f then (.device, [])
    else (.deviceEntry, [])
  | .deviceParameters =>
    if code < 0x20 then (.deviceParameters, [])
    else if code < 0x30 then (.deviceTail, [])
    else if code < 0x3c then (.deviceParameters, [])
    else if code < 0x40 then (.ignored, [])
    else if code < 0x7f then (.device, [])
    else (.deviceParameters, [])
  | .deviceTail =>
    if code < 0x30 then (.deviceTail, [])
    else if code < 0x40 then (.ignored, [])
    else if code < 0x7f then (.device, [])
    else (.deviceTail, [])
  | .device =>
    match (laterBytes c).dropWhile (· ≠ 0x9c) with
    | [] => (.device, [])
    | _ :: rest => (.text, strayBytes rest)
  | .ignored => (.ignored, [])

/-- The mode after a character and what is shown of the character. -/
def step (mode : Mode) (c : Char) : Mode × List Char :=
  if c = '\x1b' then (.escape, [])
  else if c = '\x18' ∨ c = '\x1a' then (.text, [])
  else advance mode c

/-- What is shown of a text that the reader meets in this mode. -/
def shown : Mode → List Char → List Char
  | _, [] => []
  | mode, c :: rest => (step mode c).2 ++ shown (step mode c).1 rest

/-- A text without control characters other than line feeds, and without escape sequences. -/
def strip (text : String) : String := String.ofList (shown .text text.toList)

end TagAsm.Plain
