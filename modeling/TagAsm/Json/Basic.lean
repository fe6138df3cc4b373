/-!
# JSON values

JSON documents as trees. Objects keep their members in the order of the text, and a key that is given twice stays there
twice, so that whoever reads an object can refuse it. Numbers that are written as integers are integers of any size. All
other numbers keep their spelling.
-/

namespace TagAsm

/-- A JSON value. A string is `none` if its escapes name half of a surrogate pair: such a text is no sequence of characters,
and only who skips the value may pass over it. -/
inductive Json where
  | null
  | bool (value : Bool)
  | integer (value : Int)
  | decimal (spelling : String)
  | string (value : Option String)
  | array (items : List Json)
  | object (members : List (Option String × Json))
  deriving Repr

namespace Json

/-- A string value. -/
def text (value : String) : Json := .string (some value)

/-- An integer value that is not negative. -/
def natural (value : Nat) : Json := .integer value

/-- The value, or null if there is none. -/
def nullable {α : Type} (encode : α → Json) : Option α → Json
  | some value => encode value
  | none => .null

/-- An array of encoded items. -/
def list {α : Type} (encode : α → Json) (items : List α) : Json := .array (items.map encode)

/-- An object with these members. -/
def record (members : List (String × Json)) : Json := .object (members.map fun (key, value) => (some key, value))

/-- An object with one member, whose key tells what its value is. -/
def tagged (name : String) (payload : Json) : Json := .object [(some name, payload)]

end Json

end TagAsm
