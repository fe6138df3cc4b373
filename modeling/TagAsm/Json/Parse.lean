import TagAsm.Json.Basic

/-!
# Reading JSON

A reader for JSON texts that accepts the grammar and nothing more: no comments, no trailing commas, no leading zeros, no
unescaped control characters, no byte order mark. White space is a space, a tab, a line feed or a carriage return.

Each reader takes the characters that are left and returns what it read with the rest. Values nest, so the readers of
values take a bound on the number of steps. Each step but the one into an array or object uses up a character, and
`parse?` allows two steps for every character.
-/

namespace TagAsm.Json

/-- White space between the parts of a document. -/
def isSpace (c : Char) : Bool := c = ' ' || c = '\t' || c = '\n' || c = '\r'

/-- The text from the first character that is no white space. -/
def skipSpace (text : List Char) : List Char := text.dropWhile isSpace

/-! ## Numbers -/

def isDigit (c : Char) : Bool := '0' ≤ c && c ≤ '9'

/-- The number that digits spell. -/
def digitsValue (digits : List Char) : Nat := digits.foldl (fun value c => 10 * value + (c.toNat - 48)) 0

/-- The digits in front of a number: a single zero, or digits of which the first is no zero. -/
def readWhole : List Char → Option (List Char × List Char)
  | '0' :: rest => some (['0'], rest)
  | text =>
    match text.span isDigit with
    | ([], _) => none
    | (digits, rest) => some (digits, rest)

/-- The digits that have to stand here, at least one. -/
def readDigits (text : List Char) : Option (List Char × List Char) :=
  match text.span isDigit with
  | ([], _) => none
  | (digits, rest) => some (digits, rest)

/-- The point and the digits behind it, if there are any. -/
def readFraction : List Char → Option (List Char × List Char)
  | '.' :: rest => (readDigits rest).map fun (digits, rest) => ('.' :: digits, rest)
  | text => some ([], text)

/-- The exponent of a number, if it has one. -/
def readExponent : List Char → Option (List Char × List Char)
  | c :: rest =>
    if c = 'e' || c = 'E' then
      match rest with
      | sign :: digits =>
        if sign = '+' || sign = '-' then
          (readDigits digits).map fun (digits, rest) => (c :: sign :: digits, rest)
        else
          (readDigits rest).map fun (digits, rest) => (c :: digits, rest)
      | [] => none
    else
      some ([], c :: rest)
  | [] => some ([], [])

/-- A number without its sign. A number with neither fraction nor exponent is an integer, but negative zero is not. -/
def readUnsigned (negative : Bool) (text : List Char) : Option (Json × List Char) := do
  let (whole, rest) ← readWhole text
  let (fraction, rest) ← readFraction rest
  let (power, rest) ← readExponent rest
  let value := digitsValue whole
  if fraction.isEmpty && power.isEmpty && !(negative && value = 0) then
    return (.integer (if negative then -(value : Int) else value), rest)
  let sign := if negative then ['-'] else []
  return (.decimal (String.ofList (sign ++ whole ++ fraction ++ power)), rest)

def readNumber : List Char → Option (Json × List Char)
  | '-' :: rest => readUnsigned true rest
  | text => readUnsigned false text

/-! ## Strings -/

/-- The value of a digit in base sixteen. -/
def hexValue? (c : Char) : Option Nat :=
  if isDigit c then some (c.toNat - 48)
  else if 'a' ≤ c ∧ c ≤ 'f' then some (c.toNat - 87)
  else if 'A' ≤ c ∧ c ≤ 'F' then some (c.toNat - 55)
  else none

/-- The code unit that four digits name. -/
def unit? (a b c d : Char) : Option Nat := do
  return (((← hexValue? a) * 16 + (← hexValue? b)) * 16 + (← hexValue? c)) * 16 + (← hexValue? d)

/-- The character that a letter stands for behind a backslash. -/
def simpleEscape? : Char → Option Char
  | '\x22' => some '\x22'
  | '\\' => some '\\'
  | '/' => some '/'
  | 'b' => some '\x08'
  | 'f' => some '\x0c'
  | 'n' => some '\n'
  | 'r' => some '\r'
  | 't' => some '\t'
  | _ => none

/-- The first half of a surrogate pair. -/
def isHighUnit (unit : Nat) : Bool := 0xD800 ≤ unit && unit < 0xDC00

/-- The second half of a surrogate pair. -/
def isLowUnit (unit : Nat) : Bool := 0xDC00 ≤ unit && unit < 0xE000

/-- The character that a pair of units names. -/
def pairedChar (high low : Nat) : Char := Char.ofNat (0x10000 + (high - 0xD800) * 0x400 + (low - 0xDC00))

/-- The characters of a string that is being read, last one first. -/
inductive Spelled where
  /-- Everything so far is a character. -/
  | whole (read : List Char)
  /-- The first half of a surrogate pair was read, and the second has to follow. -/
  | halfway (read : List Char) (high : Nat)
  /-- One half of a surrogate pair stands alone. -/
  | broken
  deriving DecidableEq, Repr

namespace Spelled

def addChar (c : Char) : Spelled → Spelled
  | .whole read => .whole (c :: read)
  | .halfway _ _ | .broken => .broken

/-- Adds a code unit that an escape names. -/
def addUnit (unit : Nat) : Spelled → Spelled
  | .whole read =>
    if isHighUnit unit then .halfway read unit
    else if isLowUnit unit then .broken
    else .whole (Char.ofNat unit :: read)
  | .halfway read high => if isLowUnit unit then .whole (pairedChar high unit :: read) else .broken
  | .broken => .broken

/-- The string, if it is one. -/
def finish : Spelled → Option String
  | .whole read => some (String.ofList read.reverse)
  | .halfway _ _ | .broken => none

end Spelled

/-- The rest of a string whose opening quote was read, and the text behind its closing quote. -/
def readQuoted (spelled : Spelled) : List Char → Option (Option String × List Char)
  | [] => none
  | '\x22' :: rest => some (spelled.finish, rest)
  | '\\' :: 'u' :: a :: b :: c :: d :: rest =>
    match unit? a b c d with
    | some unit => readQuoted (spelled.addUnit unit) rest
    | none => none
  | '\\' :: c :: rest =>
    match simpleEscape? c with
    | some escaped => readQuoted (spelled.addChar escaped) rest
    | none => none
  | c :: rest => if c.toNat < 32 || c = '\\' then none else readQuoted (spelled.addChar c) rest

/-- A string, from its opening quote on. -/
def readString : List Char → Option (Option String × List Char)
  | '\x22' :: rest => readQuoted (.whole []) rest
  | _ => none

/-! ## Values -/

mutual

/-- A value, from its first character on. -/
def readValue : Nat → List Char → Option (Json × List Char)
  | 0, _ => none
  | fuel + 1, text =>
    match text with
    | 'n' :: 'u' :: 'l' :: 'l' :: rest => some (.null, rest)
    | 't' :: 'r' :: 'u' :: 'e' :: rest => some (.bool true, rest)
    | 'f' :: 'a' :: 'l' :: 's' :: 'e' :: rest => some (.bool false, rest)
    | '\x22' :: _ => (readString text).map fun (value, rest) => (.string value, rest)
    | '[' :: rest =>
      match skipSpace rest with
      | ']' :: rest => some (.array [], rest)
      | rest => readItems fuel [] rest
    | '\x7b' :: rest =>
      match skipSpace rest with
      | '\x7d' :: rest => some (.object [], rest)
      | rest => readMembers fuel [] rest
    | _ => readNumber text

/-- The rest of an array that goes on with an item. `read` holds the items before it, last one first. -/
def readItems : Nat → List Json → List Char → Option (Json × List Char)
  | 0, _, _ => none
  | fuel + 1, read, text =>
    match readValue fuel text with
    | none => none
    | some (item, rest) =>
      match skipSpace rest with
      | ',' :: rest => readItems fuel (item :: read) (skipSpace rest)
      | ']' :: rest => some (.array (item :: read).reverse, rest)
      | _ => none

/-- The rest of an object that goes on with a member. `read` holds the members before it, last one first. -/
def readMembers : Nat → List (Option String × Json) → List Char → Option (Json × List Char)
  | 0, _, _ => none
  | fuel + 1, read, text =>
    match readString text with
    | none => none
    | some (key, rest) =>
      match skipSpace rest with
      | ':' :: rest =>
        match readValue fuel (skipSpace rest) with
        | none => none
        | some (value, rest) =>
          match skipSpace rest with
          | ',' :: rest => readMembers fuel ((key, value) :: read) (skipSpace rest)
          | '\x7d' :: rest => some (.object ((key, value) :: read).reverse, rest)
          | _ => none
      | _ => none

end

/-- The value that a document holds: one value, with nothing but white space around it. -/
def parse? (text : String) : Option Json :=
  let characters := text.toList
  match readValue (2 * characters.length + 2) (skipSpace characters) with
  | some (value, rest) => if (skipSpace rest).isEmpty then some value else none
  | none => none

end TagAsm.Json
