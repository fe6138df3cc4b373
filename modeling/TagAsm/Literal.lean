import TagAsm.Types
import TagAsm.Text.Quoted

/-!
# Literals

The constants that a program can write down. A literal has the width of its type, so no literal is out of range.
-/

namespace TagAsm

/-- A constant, with its type. -/
inductive LiteralValue where
  | bool (value : Bool)
  | byte (value : UInt8)
  | int (value : Int32)
  | uint (value : UInt32)
  | long (value : Int64)
  | ulong (value : UInt64)
  | char (value : Char)
  | string (value : String)
  deriving DecidableEq, Repr

namespace LiteralValue

/-- The type of a literal. -/
def primitive : LiteralValue → Primitive
  | .bool _ => .bool
  | .byte _ => .byte
  | .int _ => .int
  | .uint _ => .uint
  | .long _ => .long
  | .ulong _ => .ulong
  | .char _ => .char
  | .string _ => .string

/-- The word that a scalar literal is made from. The upper half of the unsigned range reads as negative. A string has no
such word. -/
def raw? : LiteralValue → Option Int
  | .bool value => some (if value then 1 else 0)
  | .byte value => some value.toNat
  | .int value => some value.toInt
  | .uint value => some value.toNat
  | .long value => some value.toInt
  | .ulong value => some value.toInt64.toInt
  | .char value => some value.toNat
  | .string _ => none

/-- A literal as listings show it: numbers carry a suffix for their type, characters and strings are quoted. -/
def text : LiteralValue → String
  | .bool value => if value then "true" else "false"
  | .byte value => toString value.toNat ++ "b"
  | .int value => toString value.toInt
  | .uint value => toString value.toNat ++ "u"
  | .long value => toString value.toInt ++ "l"
  | .ulong value => toString value.toNat ++ "ul"
  | .char value => Quoted.char value
  | .string value => Quoted.string value

end LiteralValue

end TagAsm
