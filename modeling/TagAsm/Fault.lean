/-!
# Faults

A program is not checked before it is compiled, so an id may name a row that its table does not hold. Such an id does no
harm until it is looked up; the look-up then stops the whole operation with a fault. A fault is never a diagnostic: it has
no location, it is not collected, and nothing that was produced before it is kept.
-/

namespace TagAsm

/-- The tables that ids address. -/
inductive Entity where
  | typeKind
  | classDecl
  | function
  | variable
  | subroutine
  | value
  | literal
  | block
  | row
  deriving DecidableEq, Repr

/-- Why an operation stopped without an answer. -/
inductive Fault where
  /-- The table of this entity has no row with this id. -/
  | outOfRange (entity : Entity) (id : Nat)
  /-- The type with this id contains itself, so it has no finite name. -/
  | endlessType (id : Nat)
  /-- The function with this id has no body, and only a function with a body has parameters and locals. -/
  | noBody (function : Nat)
  /-- A size cannot be rounded to multiples of zero. -/
  | zeroAlignment
  deriving DecidableEq, Repr

end TagAsm
