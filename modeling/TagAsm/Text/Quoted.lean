import TagAsm.Text.Hidden

/-!
# Quoted text

Characters and strings as they are written in program listings: in quotes, with the quote and the backslash escaped, the
usual control characters by letter, and every other hidden character by its code point.
-/

namespace TagAsm.Quoted

/-- A character by its code point: lower case hexadecimal digits in braces. -/
def codePoint (c : Char) : List Char := ['\\', 'u', '\x7b'] ++ Nat.toDigits 16 c.toNat ++ ['\x7d']

/-- A character as it is written between quotes of the kind `quote`. -/
def escape (quote c : Char) : List Char :=
  if c = '\x00' then ['\\', '0']
  else if c = '\t' then ['\\', 't']
  else if c = '\r' then ['\\', 'r']
  else if c = '\n' then ['\\', 'n']
  else if c = '\\' then ['\\', '\\']
  else if c = quote then ['\\', c]
  else if Hidden.isHidden c then codePoint c
  else [c]

/-- Text between quotes of the kind `quote`. -/
def enclose (quote : Char) (text : List Char) : String :=
  String.ofList (quote :: text.flatMap (escape quote) ++ [quote])

/-- A character in single quotes. -/
def char (c : Char) : String := enclose '\x27' [c]

/-- A string in double quotes. -/
def string (text : String) : String := enclose '\x22' text.toList

end TagAsm.Quoted
