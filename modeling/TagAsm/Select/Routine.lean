import TagAsm.Select.Basic

/-!
# Routines

The frame of a subroutine. All slots are laid out before the first instruction: the address of the return value, the
addresses of the parameters that arrive in registers, a record for each parameter, local and temporary, and the words that
native calls are prepared in. Temporaries that receive an address from the value library have a slot for the address only.
-/

namespace TagAsm.Select

open Asm Abi
open TagAsm.Flow (SubroutineId ValueId BlockId Body)

/-- The value to which a statement gives the address of an element or member. -/
def referenceResult? (statement : Flow.Statement) : Option ValueId :=
  match statement.action with
  | .operator .indexRef result _ | .memberRef result _ _ => some result
  | _ => none

/-- Every statement of a body, block by block. -/
def bodyStatements (body : Body) : List Flow.Statement := body.blocks.flatMap (·.statements)

/-- The values that hold addresses rather than values. -/
def referenceValues (body : Body) : List ValueId := (bodyStatements body).filterMap referenceResult?

/-- The words that a statement needs for a native call: one for each parameter, and at least one for the result. -/
def nativeWords (program : Flow.Program) (statement : Flow.Statement) : Except Fault Nat := do
  match statement.action with
  | .call _ callee _ =>
    match program.subroutines[callee]? with
    | some subroutine =>
      if subroutine.isForeign then
        match ← program.types.signature subroutine.ty with
        | some (parameters, _) => return max parameters.length 1
        | none => return 1
      else
        return 0
    | none => return 0
  | _ => return 0

/-- The words that the native calls of a body need. -/
def scratchWords (program : Flow.Program) (body : Body) : Except Fault Nat :=
  return (← (bodyStatements body).mapM (nativeWords program)).foldl max 0

/-- The parameters that arrive in registers, after the address of the return value. -/
def registerParameters (body : Body) : List ValueId := body.parameters.take (Register.arguments.length - 1)

/-- The parameters that arrive on the stack. -/
def stackParameters (body : Body) : List ValueId := body.parameters.drop (Register.arguments.length - 1)

/-- A record for each of the parameters, which are copied there. -/
def ownRecords : Frame → List ValueId → List (ValueId × Slot) × Frame
  | frame, [] => ([], frame)
  | frame, parameter :: rest =>
    let reserved := frame.reserve inlineSlotSize
    let (records, last) := ownRecords reserved rest
    ((parameter, ⟨-reserved.size, false⟩) :: records, last)

/-- Slots for values, one after the other. -/
def allocateAll (byReference : ValueId → Bool) (frame : Frame) (values : List ValueId) : Frame :=
  values.foldl (fun frame value => frame.allocate value (byReference value)) frame

/-- The frame of a subroutine. -/
structure Layout where
  /-- The slots at the time of entry. -/
  frame : Frame
  /-- Where the address of the return value is kept. -/
  returnSlot : Slot
  /-- Where the addresses that arrive in registers are kept. -/
  incoming : List Slot
  /-- The records that parameters are copied to. -/
  records : List (ValueId × Slot)
  /-- Where native calls are prepared. -/
  scratch : Option Int
  deriving DecidableEq, Repr

/-- The slots of the addresses that arrive in registers. -/
def incomingSlots : Frame → List ValueId → List Slot × Frame
  | frame, [] => ([], frame)
  | frame, parameter :: rest =>
    let (slots, last) := incomingSlots (frame.allocate parameter true) rest
    (frame.nextSlot true :: slots, last)

/-- Addresses on the stack lie above the saved frame pointer and the return address. -/
def bindStackParameters (frame : Frame) (parameters : List ValueId) : Frame :=
  parameters.zipIdx.foldl (fun frame (parameter, place) => frame.bind parameter ⟨16 + 8 * (place : Nat), true⟩) frame

/-- Lays out the frame of a body that needs `words` words for native calls. -/
def layoutOf (body : Body) (words : Nat) : Layout :=
  let references := referenceValues body
  let returnSlot := Frame.empty.nextSlot true
  let frame := Frame.empty.allocate body.returnValue true
  let (incoming, frame) := incomingSlots frame (registerParameters body)
  let frame := bindStackParameters frame (stackParameters body)
  let (records, frame) := ownRecords frame body.parameters
  let frame := allocateAll (fun _ => false) frame body.locals
  let frame := allocateAll (· ∈ references) frame body.temporaries
  let reserved := frame.reserve (8 * (words : Nat))
  if 0 < words then ⟨reserved, returnSlot, incoming, records, some (-reserved.size)⟩
  else ⟨frame, returnSlot, incoming, records, none⟩

/-- A subroutine while its blocks are selected. -/
structure Routine where
  id : SubroutineId
  symbol : String
  body : Body
  /-- The slots once the parameters have been copied. -/
  frame : Frame
  scratch : Option Int

/-- A label of the subroutine with this symbol. -/
def blockLabel (symbol : String) (id : BlockId) : String := localLabel symbol ("bb" ++ toString id)

/-- The label of the code made from the statement with this number. -/
def lineLabel (symbol : String) (number : Nat) : String := localLabel symbol ("line" ++ toString number)

end TagAsm.Select
