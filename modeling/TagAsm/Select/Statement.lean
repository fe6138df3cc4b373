import TagAsm.Asm.DebugTables
import TagAsm.Flow.Listing
import TagAsm.Select.Emitter
import TagAsm.Select.Routine
import TagAsm.Text.Plain

/-!
# Selecting statements

The code of one statement. A statement that makes sense but cannot be compiled is reported and skipped, and everything is
checked before anything is kept or emitted, so that nothing is left of it. A statement that refers to something missing gives
up the whole subroutine.
-/

namespace TagAsm.Select

open Asm Abi SelectM
open TagAsm.Flow (SubroutineId ValueId LiteralId)

/-! ## Checks -/

/-- The address of a value. -/
def valueArgument (frame : Frame) (id : ValueId) : SelectM Argument :=
  require ((frame.slot? id).map .value) (.missingSlot id)

/-- The addresses of values. -/
def valueArguments (frame : Frame) (ids : List ValueId) : SelectM (List Argument) :=
  collect (fun id => return [← valueArgument frame id]) ids

/-- The place of a slot that receives an address. -/
def referencePlace (frame : Frame) (id : ValueId) : SelectM Int := do
  let slot ← require (frame.slot? id) (.missingSlot id)
  if slot.byReference then
    return slot.offset
  refuse (.notAReference id)

/-- Keeps the address that a call returned. -/
def storeResult (offset : Int) : List Item := Item.code [.movq (.quad .rax) (.frame offset)]

/-- The address and the length of a member's name. -/
def nameArguments (context : Context) (name : LiteralId) : SelectM (List Argument) :=
  match context.program.literals[name]? with
  | some ⟨_, _, .string contents⟩ => stringArguments contents
  | _ => refuse (.unusableLiteral name)

/-- How many operands an operator takes, calls apart. -/
def operandCount : Flow.Operator → Nat
  | .pos | .neg | .not | .bitNot | .increment | .decrement | .deref => 1
  | _ => 2

/-- Refuses an operator that does not have its number of operands. -/
def checkOperands (kind : Flow.Operator) (given : Nat) : SelectM Unit :=
  if given = operandCount kind then pure ()
  else
    reject .wrongArgumentCount
      ("`" ++ kind.symbol ++ "` takes " ++ toString (operandCount kind) ++ " operand(s) but " ++ toString given
        ++ " were given")

/-- Refuses a call that does not have its number of arguments. -/
def checkArguments (name : String) (expected given : Nat) : SelectM Unit :=
  if given = expected then pure ()
  else
    reject (if given < expected then .missingArgument else .wrongArgumentCount)
      ("`" ++ name ++ "` takes " ++ toString expected ++ " argument(s) but " ++ toString given ++ " were given")

/-- The primitive as which a value of this type is passed to native code. -/
def nativeKind (context : Context) (ty : TypeId) : Except Fault (Option Primitive) :=
  return (← context.program.types.asPrimitive ty).filter Primitive.isScalar

/-- The primitives as which arguments are passed, one at most for each type. -/
def parameterKinds (context : Context) (name : String) (parameters : List TypeId) : SelectM (List Primitive) :=
  collect (fun ty => do
    match ← lookUp (nativeKind context ty) with
    | some kind => return [kind]
    | none =>
      let typeName ← lookUp (context.program.typeName ty)
      reject .unsupportedForeignType ("`" ++ typeName ++ "` can't be passed to foreign subroutine `" ++ name ++ "`"))
    parameters

/-- The primitive as which a result comes back, if one does. -/
def returnKind (context : Context) (name : String) (ty : TypeId) : SelectM (Option Primitive) := do
  if ← lookUp (context.program.types.isVoid ty) then
    return none
  match ← lookUp (nativeKind context ty) with
  | some kind => return some kind
  | none =>
    let typeName ← lookUp (context.program.typeName ty)
    reject .unsupportedReturnType
      ("foreign subroutine `" ++ name ++ "` returns `" ++ typeName ++ "`, which has no native form")

/-- Refuses arguments where none are taken. -/
def checkNoArguments (name : String) (arguments : List ValueId) : SelectM Unit :=
  if arguments.isEmpty then pure () else reject .wrongArgumentCount ("make<" ++ name ++ "> takes no arguments")

namespace EmitM

/-! ## Operators -/

/-- Calls a value with its arguments, and tells it how many there are. -/
def valueCall (result : ValueId) (operands : List ValueId) : EmitM Unit := do
  let frame ← getFrame
  match operands with
  | [] => reject .wrongArgumentCount "indirect call without a callee"
  | callee :: arguments =>
    let result ← valueArgument frame result
    let callee ← valueArgument frame callee
    let passed ← valueArguments frame arguments
    callOperation .call ([result, callee, .immediate arguments.length] ++ passed) .rsi

/-- Applies an operator. -/
def operator (kind : Flow.Operator) (result : ValueId) (operands : List ValueId) : EmitM Unit := do
  let frame ← getFrame
  match kind with
  | .call => valueCall result operands
  | .indexRef =>
    checkOperands kind operands.length
    let place ← referencePlace frame result
    let operands ← valueArguments frame operands
    callOperation (.ofOperator kind) operands .rdi
    emit (storeResult place)
  | _ =>
    checkOperands kind operands.length
    let result ← valueArgument frame result
    let operands ← valueArguments frame operands
    callOperation (.ofOperator kind) (result :: operands) .rsi

/-! ## Calls -/

/-- Takes the word out of each argument and keeps it, since the next call overwrites the registers. -/
def unwrap (scratch : Int) : Nat → List (Argument × Primitive) → EmitM Unit
  | _, [] => return
  | place, (argument, kind) :: rest => do
    callHelper (.unwrap kind) [argument]
    emit (storeResult (scratch + 8 * (place : Nat)))
    unwrap scratch (place + 1) rest

/-- Makes the result of a native call from the word that it returned. -/
def wrap (scratch : Int) (result : Argument) (kind : Option Primitive) : EmitM Unit := do
  let some kind := kind | return
  emit (storeResult scratch)
  dropValue result
  callHelper (.make kind) [result, .load scratch]

/-- Calls a native subroutine: the words of its arguments are taken out and passed in registers, and its result is made
into a value. -/
def foreignCall (context : Context) (scratch : Option Int) (result : ValueId) (callee : SubroutineId)
    (subroutine : Flow.Subroutine) (arguments : List ValueId) : EmitM Unit := do
  let frame ← getFrame
  let name := subroutine.symbol.name
  let (parameters, returnType) ← require (← lookUp (context.program.types.signature subroutine.ty)) (.notCallable callee)
  checkArguments name parameters.length arguments.length
  if Register.arguments.length < parameters.length then
    reject .foreignMisuse
      ("foreign subroutine `" ++ name ++ "` takes " ++ toString parameters.length ++ " arguments, at most "
        ++ toString Register.arguments.length ++ " are supported")
  let kinds ← parameterKinds context name parameters
  let returned ← returnKind context name returnType
  let scratch ← require scratch .missingScratch
  let values ← valueArguments frame arguments
  let result ← valueArgument frame result
  let symbol ← subroutineSymbol context callee
  unwrap scratch 0 (values.zip kinds)
  callThrough ((List.range kinds.length).map fun place => Argument.load (scratch + 8 * (place : Nat)))
    [.zero .rax, .call (.symbol symbol)]
  wrap scratch result returned

/-- Calls a subroutine. -/
def call (context : Context) (scratch : Option Int) (result : ValueId) (callee : SubroutineId) (arguments : List ValueId) :
    EmitM Unit := do
  let frame ← getFrame
  let subroutine ← require context.program.subroutines[callee]? (.missingSubroutine callee)
  if subroutine.isForeign then
    foreignCall context scratch result callee subroutine arguments
  else
    match ← lookUp (context.program.types.signature subroutine.ty) with
    | some (parameters, _) =>
      let name ← lookUp (context.program.subroutineName callee)
      checkArguments name parameters.length arguments.length
    | none => pure ()
    let result ← valueArgument frame result
    let passed ← valueArguments frame arguments
    let symbol ← subroutineSymbol context callee
    callDirect symbol (result :: passed)

/-! ## Builtins -/

/-- Shows values. -/
def print (arguments : List ValueId) : EmitM Unit := do
  let values ← valueArguments (← getFrame) arguments
  values.forM fun value => callHelper .printValue [value]

/-- Asks a value for the name of its type. -/
def typeOf (result : Option ValueId) (arguments : List ValueId) : EmitM Unit := do
  let frame ← getFrame
  match arguments with
  | [value] =>
    let result ← require result .missingResult
    let result ← valueArgument frame result
    let value ← valueArgument frame value
    callOperation .typeName [result, value] .rsi
  | _ => reject .wrongArgumentCount "typeof takes exactly one value"

/-- Converts a value. -/
def cast (context : Context) (target : Option TypeId) (result : ValueId) (arguments : List ValueId) : EmitM Unit := do
  let frame ← getFrame
  let some target := target | reject .unimplementedCast "cast without a target type"
  match arguments with
  | [value] =>
    let result ← valueArgument frame result
    let value ← valueArgument frame value
    match ← lookUp (context.program.types.get target) with
    | .primitive kind => callOperation .cast [result, value, .immediate kind.tag] .rsi
    | .dynamic => callOperation .assign [result, value] .rsi
    | _ =>
      let name ← lookUp (context.program.typeName target)
      reject .unimplementedCast ("cast to `" ++ name ++ "` is not implemented")
  | _ => reject .wrongArgumentCount "cast takes exactly one value"

/-- Makes a primitive value: the default one, or one converted from another value. -/
def makePrimitive (context : Context) (target : TypeId) (kind : Primitive) (name : String) (destination : Argument)
    (arguments : List ValueId) : EmitM Unit := do
  match arguments with
  | [] =>
    dropValue destination
    makeDefault context destination target
  | [value] =>
    let value ← valueArgument (← getFrame) value
    callOperation .cast [destination, value, .immediate kind.tag] .rsi
  | _ => reject .wrongArgumentCount ("make<" ++ name ++ "> takes at most one value")

/-- Makes a new value in the place of the old one. -/
def make (context : Context) (target : Option TypeId) (result : ValueId) (arguments : List ValueId) : EmitM Unit := do
  let some target := target | reject .unsupportedMakeTarget "make without a target type"
  let name ← lookUp (context.program.typeName target)
  let destination ← valueArgument (← getFrame) result
  match ← lookUp (context.program.types.get target) with
  | .primitive kind => makePrimitive context target kind name destination arguments
  | .array _ =>
    checkNoArguments name arguments
    dropValue destination
    callHelper .makeArray [destination]
  | .classType .. =>
    checkNoArguments name arguments
    if (context.program.classOfType? target).isNone then
      reject .unsupportedMakeTarget ("class `" ++ name ++ "` has no layout")
    let initializer ← initializerSymbol context target
    dropValue destination
    callDirect initializer [destination]
  | .void | .dynamic | .function .. =>
    reject .unsupportedMakeTarget ("can't make a value of type `" ++ name ++ "`")

/-- Applies a builtin. -/
def builtin (context : Context) (kind : Flow.Builtin) (template : Option TypeId) (result : Option ValueId)
    (arguments : List ValueId) : EmitM Unit := do
  match kind with
  | .print => print arguments
  | .typeOf => typeOf result arguments
  | .cast => cast context template (← require result .missingResult) arguments
  | .make => make context template (← require result .missingResult) arguments

/-! ## Assignments -/

/-- Makes a literal in the place of the old value. -/
def assignLiteral (context : Context) (target : Argument) (id : LiteralId) : EmitM Unit := do
  let literal ← require context.program.literals[id]? (.unusableLiteral id)
  let contents ←
    match literal.value with
    | .string contents => stringArguments contents
    | value =>
      let word ← require value.raw? (.unusableLiteral id)
      pure [.immediate word]
  dropValue target
  callHelper (.make literal.value.primitive) (target :: contents)

/-- Makes a function value in the place of the old value. -/
def assignSubroutine (context : Context) (target : Argument) (id : SubroutineId) : EmitM Unit := do
  let subroutine ← require context.program.subroutines[id]? (.missingSubroutine id)
  if subroutine.isForeign then
    reject .foreignSubroutineAssignment
      ("foreign subroutine `" ++ subroutine.symbol.name ++ "` can't be used as a value")
  let symbol ← subroutineSymbol context id
  dropValue target
  callHelper .makeFunction [target, .symbol symbol]

/-- Assigns to a value. -/
def assign (context : Context) (destination : ValueId) (source : Flow.AssignSource) : EmitM Unit := do
  let frame ← getFrame
  let target ← valueArgument frame destination
  match source with
  | .value id =>
    let source ← valueArgument frame id
    callOperation .assign [target, source] .rsi
  | .literal id => assignLiteral context target id
  | .subroutine id => assignSubroutine context target id

/-! ## Statements -/

/-- Emits what a statement does. -/
def action (context : Context) (scratch : Option Int) : Flow.Action → EmitM Unit
  | .operator kind result arguments => operator kind result arguments
  | .call result callee arguments => call context scratch result callee arguments
  | .member result object name => do
    let frame ← getFrame
    let name ← nameArguments context name
    let result ← valueArgument frame result
    let object ← valueArgument frame object
    callOperation .member ([result, object] ++ name) .rsi
  | .memberRef result object name => do
    let frame ← getFrame
    let name ← nameArguments context name
    let place ← referencePlace frame result
    let object ← valueArgument frame object
    callOperation .memberRef (object :: name) .rdi
    emit (storeResult place)
  | .builtin kind template result arguments => builtin context kind template result arguments
  | .assign destination source => assign context destination source

/-- Emits what a statement does, or reports an error if it makes sense but cannot be compiled. -/
def actionOrError (context : Context) (scratch : Option Int) (statement : Flow.Statement) : EmitM Unit :=
  tryCatch (action context scratch statement.action) fun
    | .rejected kind message => addError kind statement.location message
    | refusal => refuse refusal

end EmitM

/-- The label of a statement's code, if debug tables are wanted and the position is known. -/
def statementLabel (context : Context) (symbol : String) (number : Nat) (statement : Flow.Statement) : List Item :=
  if context.debugInfo && (DebugTables.lineEntry? (lineLabel symbol number) statement.location).isSome then
    [.label (lineLabel symbol number)]
  else
    []

namespace EmitM

/-- Emits the statement with this number: a label, the statement as a comment, and what it does. -/
def statement (context : Context) (routine : Routine) (number : Nat) (statement : Flow.Statement) : EmitM Unit := do
  emit (statementLabel context routine.symbol number statement)
  let text ← lookUp (context.program.actionText routine.body context.colored statement.action)
  emit [.comment (Plain.strip text)]
  actionOrError context routine.scratch statement

/-- Emits statements one after the other. -/
def statements (context : Context) (routine : Routine) : List (Flow.Statement × Nat) → EmitM Unit
  | [] => return
  | (first, number) :: rest => do
    statement context routine number first
    statements context routine rest

end EmitM

end TagAsm.Select
