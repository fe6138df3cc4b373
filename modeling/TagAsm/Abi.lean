import TagAsm.Flow.Basic

/-!
# The contract with the value library

Compiled programs do not work on values themselves. A value is a record of a tag, a pointer to the operations of its type,
and a payload; everything that is done to it is a call through that table, or a call of one of the library's helpers. This
module holds the layout of the record and the table, and the names of the helpers.
-/

namespace TagAsm.Abi

/-- The bytes of a value record. -/
def valueSize : Int := 24

/-- The place of the operation table's address in a value record. -/
def tableOffset : Int := 8

/-- Storage on the stack comes in multiples of this many bytes, which keeps calls aligned. -/
def granule : Int := 16

/-- The least multiple of `alignment` that is not below `value`, for values that are not negative. The quotient is cut
toward zero. -/
def roundUp (value alignment : Int) : Int := Int.tdiv (value + alignment - 1) alignment * alignment

/-- Rounds up, unless the alignment is zero. -/
def roundUpChecked (value alignment : Int) : Except Fault Int :=
  if alignment = 0 then .error .zeroAlignment else .ok (roundUp value alignment)

/-- The stack bytes of a slot that holds a value record. -/
def inlineSlotSize : Int := roundUp valueSize granule

/-- The stack bytes of a slot that holds the address of a value record. -/
def pointerSlotSize : Int := granule

/-- The entries of an operation table. -/
inductive Operation where
  | pos
  | neg
  | not
  | bitNot
  | inc
  | dec
  | or
  | and
  | bitOr
  | bitXor
  | bitAnd
  | eq
  | ne
  | lt
  | le
  | shl
  | shr
  | add
  | sub
  | mul
  | div
  | rem
  | index
  | indexRef
  | member
  | memberRef
  | deref
  | call
  | assign
  | drop
  | copy
  | cast
  | repr
  | typeName
  deriving DecidableEq, Repr

namespace Operation

/-- The entries in the order of the table. -/
def all : List Operation :=
  [.pos, .neg, .not, .bitNot, .inc, .dec, .or, .and, .bitOr, .bitXor, .bitAnd, .eq, .ne, .lt, .le, .shl, .shr, .add, .sub,
    .mul, .div, .rem, .index, .indexRef, .member, .memberRef, .deref, .call, .assign, .drop, .copy, .cast, .repr, .typeName]

/-- The place of an entry in the table, eight bytes each. -/
def offset (operation : Operation) : Int := 8 * (all.idxOf operation : Nat)

/-- The entry that an operator calls. -/
def ofOperator : Flow.Operator → Operation
  | .pos => .pos
  | .neg => .neg
  | .not => .not
  | .bitNot => .bitNot
  | .increment => .inc
  | .decrement => .dec
  | .or => .or
  | .and => .and
  | .bitOr => .bitOr
  | .bitXor => .bitXor
  | .bitAnd => .bitAnd
  | .equal => .eq
  | .notEqual => .ne
  | .less => .lt
  | .lessEqual => .le
  | .shiftLeft => .shl
  | .shiftRight => .shr
  | .add => .add
  | .subtract => .sub
  | .multiply => .mul
  | .divide => .div
  | .remainder => .rem
  | .index => .index
  | .indexRef => .indexRef
  | .deref => .deref
  | .call => .call

end Operation

/-- The functions of the value library that are called by name. -/
inductive Helper where
  /-- Makes a value from a word, or a string from an address and a length. -/
  | make (kind : Primitive)
  | makeNone
  | makeFunction
  | makeArray
  | makeObject
  /-- Takes the word out of a value. -/
  | unwrap (kind : Primitive)
  | printValue
  | flushOutput
  deriving DecidableEq, Repr

namespace Helper

def symbol : Helper → String
  | .make kind => "make_" ++ kind.name
  | .makeNone => "make_none"
  | .makeFunction => "make_function"
  | .makeArray => "make_array"
  | .makeObject => "make_object"
  | .unwrap kind => "unwrap_" ++ kind.name
  | .printValue => "print_value"
  | .flushOutput => "flush_output"

/-- The helpers that work on no particular primitive. -/
def general : List Helper := [.makeNone, .makeFunction, .makeArray, .makeObject, .printValue, .flushOutput]

def all : List Helper := Primitive.all.flatMap (fun kind => [.make kind, .unwrap kind]) ++ general

end Helper

end TagAsm.Abi
