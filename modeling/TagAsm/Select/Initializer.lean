import TagAsm.Select.Statement

/-!
# Selecting class initializers

An initializer makes an object in a place that holds no value: an object without members first, then every field with the
default value of its type, then every method as a function value.
-/

namespace TagAsm.Select

open Asm Abi SelectM
open TagAsm.Flow (Field Method ClassLayout)

/-- Where an initializer keeps the address of the object, and that of the member at hand. -/
structure InitializerFrame where
  frame : Frame
  object : Int
  member : Int
  deriving DecidableEq, Repr

/-- The frame of every initializer. -/
def initializerFrame : InitializerFrame :=
  let first := Frame.empty.reserve 8
  let second := first.reserve 8
  ⟨second, -first.size, -second.size⟩

/-- Asks the object for the place of a member. -/
def memberPlaceCode (places : InitializerFrame) (name : String) : SelectM (List Item) := do
  let contents ← stringArguments name
  return callOperation places.frame .memberRef (.load places.object :: contents) .rdi ++ storeResult places.member

/-- Gives a field its default value. -/
def fieldCode (context : Context) (places : InitializerFrame) (field : Field) : SelectM (List Item) := do
  let place ← memberPlaceCode places field.name
  let make ← makeDefault context places.frame (.load places.member) field.ty
  return place ++ make

/-- Binds a method. -/
def methodCode (context : Context) (places : InitializerFrame) (method : Method) : SelectM (List Item) := do
  let symbol ← subroutineSymbol context method.subroutine
  let place ← memberPlaceCode places method.name
  let make ← callHelper places.frame .makeFunction [.load places.member, .symbol symbol]
  return place ++ make

/-- The code of the initializer of a class. -/
def initializerCode (context : Context) (decl : ClassLayout) (symbol : String) : SelectM (List Item) := do
  let places := initializerFrame
  let name ← lookUp (context.program.typeName decl.ty)
  let contents ← stringArguments name
  let make ← callHelper places.frame .makeObject (.load places.object :: contents)
  let fields ← collect (fieldCode context places) decl.fields
  let methods ← collect (methodCode context places) decl.methods
  return [.label symbol]
    ++ Item.code
      (Instruction.openFrame ++ [.subq places.frame.size .rsp, .movq (.quad .rdi) (.frame places.object)])
    ++ make ++ fields ++ methods ++ Item.code Instruction.closeFrame

end TagAsm.Select
