import TagAsm.Proofs.StraightCode

/-!
# The code of statements

What the steps of emission add to the code, as a value: each definition is named after the step of `EmitM` whose code it is, and takes
the frame that is emitted in. It is shown later that the steps emit just that.
-/

namespace TagAsm.Select

open Asm Abi SelectM
open TagAsm.Flow (SubroutineId ValueId LiteralId)

def valueCallCode (frame : Frame) (res : ValueId) (opds : List ValueId) : SelectM (List Item) := do
  match opds with
  | [] => reject .wrongArgumentCount "indirect call without a callee"
  | callee :: args =>
    let res ← valueArgument frame res
    let callee ← valueArgument frame callee
    let passed ← valueArguments frame args
    return callOperation frame .call ([res, callee, .immediate args.length] ++ passed) .rsi

def operatorCode (frame : Frame) (kind : Flow.Operator) (res : ValueId) (opds : List ValueId) :
    SelectM (List Item) := do
  match kind with
  | .call => valueCallCode frame res opds
  | .indexRef =>
    checkOperands kind opds.length
    let place ← referencePlace frame res
    let opds ← valueArguments frame opds
    return callOperation frame (.ofOperator kind) opds .rdi ++ storeResult place
  | _ =>
    checkOperands kind opds.length
    let res ← valueArgument frame res
    let opds ← valueArguments frame opds
    return callOperation frame (.ofOperator kind) (res :: opds) .rsi

def unwrapCode (frame : Frame) (scratch : Int) : Nat → List (Argument × Primitive) → SelectM (List Item)
  | _, [] => return []
  | place, (arg, kind) :: rest => do
    let unwrap ← callHelper frame (.unwrap kind) [arg]
    let others ← unwrapCode frame scratch (place + 1) rest
    return unwrap ++ storeResult (scratch + 8 * (place : Nat)) ++ others

def wrapCode (frame : Frame) (scratch : Int) (res : Argument) (kind : Option Primitive) : SelectM (List Item) := do
  match kind with
  | some kind =>
    let make ← callHelper frame (.make kind) [res, .load scratch]
    return storeResult scratch ++ dropValue frame res ++ make
  | none => return []

def foreignCallCode (cx : Context) (rt : Routine) (res : ValueId) (callee : SubroutineId)
    (sub : Flow.Subroutine) (args : List ValueId) : SelectM (List Item) := do
  let name := sub.symbol.name
  let (params, ret) ← require (← lookUp (cx.program.types.signature sub.ty)) (.notCallable callee)
  checkArguments name params.length args.length
  if Register.arguments.length < params.length then
    reject .foreignMisuse ("foreign subroutine `" ++ name ++ "` takes " ++ toString params.length ++ " arguments, at most "
        ++ toString Register.arguments.length ++ " are supported")
  let kinds ← parameterKinds cx name params
  let returned ← returnKind cx name ret
  let scratch ← require rt.scratch .missingScratch
  let values ← valueArguments rt.frame args
  let res ← valueArgument rt.frame res
  let sym ← subroutineSymbol cx callee
  let unwrap ← unwrapCode rt.frame scratch 0 (values.zip kinds)
  let words := (List.range kinds.length).map fun place => Argument.load (scratch + 8 * (place : Nat))
  let call := Item.code (rt.frame.callCode words [.zero .rax, .call (.symbol sym)])
  let wrap ← wrapCode rt.frame scratch res returned
  return unwrap ++ call ++ wrap

def callCode (cx : Context) (rt : Routine) (res : ValueId) (callee : SubroutineId)
    (args : List ValueId) : SelectM (List Item) := do
  let sub ← require cx.program.subroutines[callee]? (.missingSubroutine callee)
  if sub.isForeign then
    foreignCallCode cx rt res callee sub args
  else
    match ← lookUp (cx.program.types.signature sub.ty) with
    | some (params, _) =>
      let name ← lookUp (cx.program.subroutineName callee)
      checkArguments name params.length args.length
    | none => pure ()
    let res ← valueArgument rt.frame res
    let passed ← valueArguments rt.frame args
    let sym ← subroutineSymbol cx callee
    return callDirect rt.frame sym (res :: passed)

def printCode (frame : Frame) (args : List ValueId) : SelectM (List Item) := do
  let values ← valueArguments frame args
  collect (fun value => callHelper frame .printValue [value]) values

def typeOfCode (frame : Frame) (res : Option ValueId) (args : List ValueId) : SelectM (List Item) := do
  match args with
  | [value] =>
    let res ← require res .missingResult
    let res ← valueArgument frame res
    let value ← valueArgument frame value
    return callOperation frame .typeName [res, value] .rsi
  | _ => reject .wrongArgumentCount "typeof takes exactly one value"

def castCode (cx : Context) (frame : Frame) (tgt : Option TypeId) (res : ValueId) (args : List ValueId) :
    SelectM (List Item) := do
  let some tgt := tgt | reject .unimplementedCast "cast without a target type"
  match args with
  | [value] =>
    let res ← valueArgument frame res
    let value ← valueArgument frame value
    match ← lookUp (cx.program.types.get tgt) with
    | .primitive kind => return callOperation frame .cast [res, value, .immediate kind.tag] .rsi
    | .dynamic => return callOperation frame .assign [res, value] .rsi
    | _ =>
      let name ← lookUp (cx.program.typeName tgt)
      reject .unimplementedCast ("cast to `" ++ name ++ "` is not implemented")
  | _ => reject .wrongArgumentCount "cast takes exactly one value"

def makePrimitiveCode (cx : Context) (frame : Frame) (tgt : TypeId) (kind : Primitive) (name : String)
    (dst : Argument) (args : List ValueId) : SelectM (List Item) := do
  match args with
  | [] =>
    let make ← makeDefault cx frame dst tgt
    return dropValue frame dst ++ make
  | [value] =>
    let value ← valueArgument frame value
    return callOperation frame .cast [dst, value, .immediate kind.tag] .rsi
  | _ => reject .wrongArgumentCount ("make<" ++ name ++ "> takes at most one value")

def makeCode (cx : Context) (frame : Frame) (tgt : Option TypeId) (res : ValueId) (args : List ValueId) :
    SelectM (List Item) := do
  let some tgt := tgt | reject .unsupportedMakeTarget "make without a target type"
  let name ← lookUp (cx.program.typeName tgt)
  let dst ← valueArgument frame res
  match ← lookUp (cx.program.types.get tgt) with
  | .primitive kind => makePrimitiveCode cx frame tgt kind name dst args
  | .array _ =>
    checkNoArguments name args
    let make ← callHelper frame .makeArray [dst]
    return dropValue frame dst ++ make
  | .classType .. =>
    checkNoArguments name args
    if (cx.program.classOfType? tgt).isNone then
      reject .unsupportedMakeTarget ("class `" ++ name ++ "` has no layout")
    let initializer ← initializerSymbol cx tgt
    return dropValue frame dst ++ callDirect frame initializer [dst]
  | .void | .dynamic | .function .. =>
    reject .unsupportedMakeTarget ("can't make a value of type `" ++ name ++ "`")

def builtinCode (cx : Context) (frame : Frame) (kind : Flow.Builtin) (tmpl : Option TypeId)
    (res : Option ValueId) (args : List ValueId) : SelectM (List Item) := do
  match kind with
  | .print => printCode frame args
  | .typeOf => typeOfCode frame res args
  | .cast =>
    let res ← require res .missingResult
    castCode cx frame tmpl res args
  | .make =>
    let res ← require res .missingResult
    makeCode cx frame tmpl res args

def assignLiteralCode (cx : Context) (frame : Frame) (tgt : Argument) (id : LiteralId) : SelectM (List Item) := do
  let lit ← require cx.program.literals[id]? (.unusableLiteral id)
  let contents ←
    match lit.value with
    | .string contents => stringArguments contents
    | value =>
      let word ← require value.raw? (.unusableLiteral id)
      pure [.immediate word]
  let make ← callHelper frame (.make lit.value.primitive) (tgt :: contents)
  return dropValue frame tgt ++ make

def assignSubroutineCode (cx : Context) (frame : Frame) (tgt : Argument) (id : SubroutineId) :
    SelectM (List Item) := do
  let sub ← require cx.program.subroutines[id]? (.missingSubroutine id)
  if sub.isForeign then
    reject .foreignSubroutineAssignment ("foreign subroutine `" ++ sub.symbol.name ++ "` can't be used as a value")
  let sym ← subroutineSymbol cx id
  let make ← callHelper frame .makeFunction [tgt, .symbol sym]
  return dropValue frame tgt ++ make

def assignCode (cx : Context) (frame : Frame) (dst : ValueId) (src : Flow.AssignSource) :
    SelectM (List Item) := do
  let tgt ← valueArgument frame dst
  match src with
  | .value id =>
    let src ← valueArgument frame id
    return callOperation frame .assign [tgt, src] .rsi
  | .literal id => assignLiteralCode cx frame tgt id
  | .subroutine id => assignSubroutineCode cx frame tgt id

def actionCode (cx : Context) (rt : Routine) : Flow.Action → SelectM (List Item)
  | .operator kind res args => operatorCode rt.frame kind res args
  | .call res callee args => callCode cx rt res callee args
  | .member res obj name => do
    let name ← nameArguments cx name
    let res ← valueArgument rt.frame res
    let obj ← valueArgument rt.frame obj
    return callOperation rt.frame .member ([res, obj] ++ name) .rsi
  | .memberRef res obj name => do
    let name ← nameArguments cx name
    let place ← referencePlace rt.frame res
    let obj ← valueArgument rt.frame obj
    return callOperation rt.frame .memberRef (obj :: name) .rdi ++ storeResult place
  | .builtin kind template res args => builtinCode cx rt.frame kind template res args
  | .assign dst src => assignCode cx rt.frame dst src

def actionCodeOrError (cx : Context) (rt : Routine) (stmt : Flow.Statement) : SelectM (List Item) :=
  tryCatch (actionCode cx rt stmt.action) fun
    | .rejected kind msg => do
      addError kind stmt.location msg
      return []
    | refusal => refuse refusal

def statementCode (cx : Context) (rt : Routine) (num : Nat) (stmt : Flow.Statement) :
    SelectM (List Item) := do
  let text ← lookUp (cx.program.actionText rt.body cx.colored stmt.action)
  let code ← actionCodeOrError cx rt stmt
  return statementLabel cx rt.symbol num stmt ++ [.comment (Plain.strip text)] ++ code

end TagAsm.Select
