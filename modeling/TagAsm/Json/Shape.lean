import TagAsm.Json.Basic

/-!
# Shapes of JSON values

The ways in which data is laid out in JSON. A record is an object with one member per field, or the array of its fields in
order. A choice is an object whose one key names the alternative, or the bare name where the alternative holds nothing.

Decoders take the number of levels that a value may still be nested. Every array or object that is looked into takes one
level. A value that nobody asks for is skipped, however deep it is.
-/

namespace TagAsm.Json

/-- How many levels a document may have. -/
def maxDepth : Nat := 127

/-! ## Scalars -/

/-- An integer from `low` to `high`. -/
def asInteger (low high : Int) : Json → Option Int
  | .integer value => if low ≤ value ∧ value ≤ high then some value else none
  | _ => none

/-- An id or another number of 32 bits without sign. -/
def asId (json : Json) : Option Nat := (asInteger 0 4294967295 json).map Int.toNat

/-- A truth value. -/
def asBool : Json → Option Bool
  | .bool value => some value
  | _ => none

/-- A string that is a sequence of characters. -/
def asString : Json → Option String
  | .string value => value
  | _ => none

/-- A string of one character. -/
def asChar (json : Json) : Option Char :=
  match (asString json).map String.toList with
  | some [c] => some c
  | _ => none

/-! ## Containers -/

/-- A value or null. -/
def asOption {α : Type} (decode : Json → Option α) : Json → Option (Option α)
  | .null => some none
  | json => (decode json).map some

/-- The items of an array, each decoded with one level less. -/
def asList {α : Type} (decode : Nat → Json → Option α) : Nat → Json → Option (List α)
  | depth + 1, .array items => items.mapM (decode depth)
  | _, _ => none

/-- Whether a field of a record has to be there. -/
inductive Presence where
  | required
  | optional
  deriving DecidableEq, Repr

/-- The value of a field in an object. A field that is given twice is refused, and an optional field that is left out is
null. -/
def field (members : List (Option String × Json)) : String × Presence → Option Json
  | (name, presence) =>
    match members.filter (fun member => member.1 = some name), presence with
    | [member], _ => some member.2
    | [], .optional => some .null
    | _, _ => none

/-- The fields of a record, in the order of `fields`. Members of an object that are no fields are skipped. An array holds
every field, also the optional ones, and nothing else. -/
def asFields (fields : List (String × Presence)) : Json → Option (List Json)
  | .object members => if members.all (·.1.isSome) then fields.mapM (field members) else none
  | .array items => if items.length = fields.length then some items else none
  | _ => none

/-- The fields of a record that has no optional ones. -/
def asRecord (names : List String) (json : Json) : Option (List Json) := asFields (names.map (·, .required)) json

/-- One alternative of a choice. -/
inductive Alternative where
  | bare (name : String)
  | holding (name : String) (payload : Json)
  deriving Repr

/-- The alternative that a value names. -/
def asAlternative : Json → Option Alternative
  | .string (some name) => some (.bare name)
  | .object [(some name, payload)] => some (.holding name payload)
  | _ => none

/-- The name of an alternative that holds nothing: the bare name, or an object in which it stands for null. -/
def asName : Nat → Json → Option String
  | _, .string name => name
  | _ + 1, .object [(name, .null)] => name
  | _, _ => none

/-- One of finitely many alternatives that hold nothing. -/
def asChoice {α : Type} (name : α → String) (all : List α) (depth : Nat) (json : Json) : Option α := do
  let given ← asName depth json
  all.find? fun alternative => name alternative = given

end TagAsm.Json
