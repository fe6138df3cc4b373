import TagAsm.Json.Basic

/-!
# Writing JSON

The text of a JSON value, without white space. Quotes, backslashes and control characters are escaped in strings, by a letter
where there is one, and every other character stands for itself.
-/

namespace TagAsm.Json

/-- A digit of a number in base sixteen. -/
def hexDigit (value : Nat) : Char := if value < 10 then Char.ofNat (48 + value) else Char.ofNat (87 + value)

/-- What stands for a character behind a backslash, if that is a single character. -/
def shortEscape? : Char → Option Char
  | '\x22' => some '\x22'
  | '\\' => some '\\'
  | '\x08' => some 'b'
  | '\x0c' => some 'f'
  | '\n' => some 'n'
  | '\r' => some 'r'
  | '\t' => some 't'
  | _ => none

/-- A character as it stands between the quotes of a string. -/
def escape (c : Char) : List Char :=
  match shortEscape? c with
  | some letter => ['\\', letter]
  | none => if c.toNat < 32 then ['\\', 'u', '0', '0', hexDigit (c.toNat / 16), hexDigit (c.toNat % 16)] else [c]

/-- A string in quotes. A string that is no sequence of characters is written as one half of a surrogate pair. -/
def quote : Option String → List Char
  | some value => '\x22' :: (value.toList.flatMap escape ++ ['\x22'])
  | none => ['\x22', '\\', 'u', 'd', '8', '0', '0', '\x22']

mutual

/-- The characters of a value. -/
def characters : Json → List Char
  | .null => ['n', 'u', 'l', 'l']
  | .bool true => ['t', 'r', 'u', 'e']
  | .bool false => ['f', 'a', 'l', 's', 'e']
  | .integer value => (toString value).toList
  | .decimal spelling => spelling.toList
  | .string value => quote value
  | .array items => '[' :: (itemCharacters items ++ [']'])
  | .object members => '\x7b' :: (memberCharacters members ++ ['\x7d'])

/-- The characters of the items of an array, separated by commas. -/
def itemCharacters : List Json → List Char
  | [] => []
  | [item] => characters item
  | item :: rest => characters item ++ ',' :: itemCharacters rest

/-- The characters of the members of an object, separated by commas. -/
def memberCharacters : List (Option String × Json) → List Char
  | [] => []
  | [(key, value)] => quote key ++ ':' :: characters value
  | (key, value) :: rest => quote key ++ ':' :: (characters value ++ ',' :: memberCharacters rest)

end

/-- The text of a value. -/
def render (json : Json) : String := String.ofList (characters json)

end TagAsm.Json
