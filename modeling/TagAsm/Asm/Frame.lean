import TagAsm.Abi

/-!
# Stack frames

Every value of a body has a slot at a fixed distance from the frame pointer. Slots are handed out downwards, in multiples of
the stack's granule, and a slot once handed out is not given back before the subroutine ends. Around a call the frame grows
by what the call pushes, and shrinks again after it.
-/

namespace TagAsm.Asm

open TagAsm.Flow (ValueId)

/-- Where a value is stored. -/
structure Slot where
  /-- The distance from the frame pointer, negative below it. -/
  offset : Int
  /-- Whether the slot holds the address of the value record rather than the record. -/
  byReference : Bool
  deriving DecidableEq, Repr

/-- The slots of a subroutine, and the bytes of its stack that are in use. -/
structure Frame where
  /-- The slots by value. An entry hides those after it. -/
  slots : List (ValueId × Slot)
  size : Int
  deriving DecidableEq, Repr

namespace Frame

def empty : Frame := ⟨[], 0⟩

/-- Sets bytes aside. They start `(frame.reserve bytes).size` below the frame pointer. -/
def reserve (frame : Frame) (bytes : Int) : Frame :=
  { frame with size := frame.size + Abi.roundUp bytes Abi.granule }

/-- Gives a value this slot, whatever slot it had. -/
def bind (frame : Frame) (value : ValueId) (slot : Slot) : Frame := { frame with slots := (value, slot) :: frame.slots }

/-- The stack bytes of a slot. -/
def slotSize (byReference : Bool) : Int := if byReference then Abi.pointerSlotSize else Abi.inlineSlotSize

/-- The slot that a value gets next. -/
def nextSlot (frame : Frame) (byReference : Bool) : Slot := ⟨-(frame.reserve (slotSize byReference)).size, byReference⟩

/-- Gives a value a new slot, which is `frame.nextSlot`. -/
def allocate (frame : Frame) (value : ValueId) (byReference : Bool) : Frame :=
  (frame.reserve (slotSize byReference)).bind value (frame.nextSlot byReference)

/-- The slot of a value. -/
def slot? (frame : Frame) (value : ValueId) : Option Slot := frame.slots.lookup value

/-- Counts bytes that were pushed. -/
def grow (frame : Frame) (bytes : Int) : Frame := { frame with size := frame.size + bytes }

/-- Counts bytes that were popped. -/
def shrink (frame : Frame) (bytes : Int) : Frame := { frame with size := frame.size - bytes }

end Frame

end TagAsm.Asm
