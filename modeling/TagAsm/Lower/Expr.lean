import TagAsm.Lower.Draft

/-!
# Lowering expressions

An expression becomes statements that leave its value in a numbered place. Operands are evaluated from left to right before
the operator is applied. A variable is its own place: no copy is made of it, and it is read when its operator is applied. A
place that is assigned to or counted is lowered to a reference: elements and members then yield a pointer to what they hold,
and whoever needs the value copies it out.
-/

namespace TagAsm.Lower

open TagAsm.Flow
open Source (Expr ExprInfo)

/-- Where the value of an expression is. -/
structure Lowered where
  value : ValueId
  /-- The object that an element or member was taken from. -/
  object : Option ValueId
  /-- Whether `value` holds a reference to the value rather than the value. -/
  isReference : Bool
  deriving DecidableEq, Repr

/-- A value that was taken from no object. -/
def Lowered.ofValue (value : ValueId) : Lowered := ⟨value, none, false⟩

/-- The operator that a unary expression applies. -/
def unaryOperator : Source.UnaryOperator → Operator
  | .plus => .pos
  | .negate => .neg
  | .not => .not
  | .bitNot => .bitNot

/-- The operator that a binary expression applies, and whether its operands change places: `a > b` is `b < a`. -/
def binaryOperator : Source.BinaryOperator → Operator × Bool
  | .logicalOr => (.or, false)
  | .logicalAnd => (.and, false)
  | .bitOr => (.bitOr, false)
  | .bitXor => (.bitXor, false)
  | .bitAnd => (.bitAnd, false)
  | .equal => (.equal, false)
  | .notEqual => (.notEqual, false)
  | .less => (.less, false)
  | .lessEqual => (.lessEqual, false)
  | .greater => (.less, true)
  | .greaterEqual => (.lessEqual, true)
  | .shiftLeft => (.shiftLeft, false)
  | .shiftRight => (.shiftRight, false)
  | .add => (.add, false)
  | .subtract => (.subtract, false)
  | .multiply => (.multiply, false)
  | .divide => (.divide, false)
  | .remainder => (.remainder, false)

/-- The operator that counts. -/
def stepOperator : Source.StepOperator → Operator
  | .increment => .increment
  | .decrement => .decrement

/-- Applies an operator on behalf of an expression. -/
def applyOperator (kind : Operator) (info : ExprInfo) (arguments : List ValueId) : LowerM ValueId := do
  let result ← temporary info.ty
  emit (.operator kind result arguments) info.location
  return result

/-- The value of a lowered expression, copied out if it is a reference. -/
def load (info : ExprInfo) (lowered : Lowered) : LowerM ValueId :=
  if lowered.isReference then applyOperator .deref info [lowered.value] else return lowered.value

/-- What an assignment takes from an expression. Literals and functions are taken directly; any other expression is lowered
first, which is what `lower` does. -/
def sourceOf (value : Expr) (lower : LowerM Lowered) : LowerM AssignSource :=
  match value with
  | .literal info constant => return .literal (← literal info.ty constant)
  | .functionRef _ id => return .subroutine id
  | _ => do
    let lowered ← lower
    return .value (← load value.info lowered)

/-- The literal that names a member, or an error if the key is not a string literal. -/
def memberName (key : Expr) : LowerM (Option LiteralId) :=
  match key with
  | .literal info (.string name) => return some (← literal info.ty (.string name))
  | _ => do
    error .nonLiteralMemberKey key.info.location "member keys must be string literals"
    return none

/-- A place without contents, for an expression that could not be lowered. -/
def placeholder (info : ExprInfo) : LowerM Lowered := return .ofValue (← temporary info.ty)

/-- The value of a variable. -/
def lowerVariable (scope : Scope) (info : ExprInfo) (id : Source.VariableId) : LowerM Lowered :=
  match scope.bindings.lookup id with
  | some value => return .ofValue value
  | none => do
    error .missingSymbol info.location
      ("VariableId(" ++ toString id ++ ") is not a variable of `" ++ scope.functionName ++ "`")
    placeholder info

/-- Puts a literal or a subroutine into a new value. -/
def lowerConstant (info : ExprInfo) (source : AssignSource) : LowerM Lowered := do
  let result ← temporary info.ty
  emit (.assign result source) info.location
  return .ofValue result

/-- Counts the place up or down, and yields the new or the old value. -/
def lowerCount (info : ExprInfo) (operator : Source.StepOperator) (fixity : Source.Fixity) (target : ValueId) :
    LowerM Lowered :=
  match fixity with
  | .before => return .ofValue (← applyOperator (stepOperator operator) info [target])
  | .after => do
    let previous ← applyOperator .deref info [target]
    let _ ← applyOperator (stepOperator operator) info [target]
    return .ofValue previous

/-- Takes a member of an object, or a reference to it. -/
def lowerMember (info : ExprInfo) (reference : Bool) (object : ValueId) (name : LiteralId) : LowerM Lowered := do
  let result ← temporary info.ty
  emit (if reference then .memberRef result object name else .member result object name) info.location
  return ⟨result, some object, reference⟩

/-- Applies a builtin that has a result of type `ty`. -/
def lowerBuiltin (info : ExprInfo) (kind : Builtin) (template : Option TypeId) (ty : TypeId) (arguments : List ValueId) :
    LowerM Lowered := do
  let result ← temporary ty
  emit (.builtin kind template (some result) arguments) info.location
  return .ofValue result

/-- What a call of a value passes: the value, and for a method the object it was taken from. -/
def calleeOperands (callee : Expr) (lowered : Lowered) : LowerM (List ValueId) :=
  match callee with
  | .member .. => return lowered.value :: lowered.object.toList
  | _ => return [← load callee.info lowered]

mutual

/-- Lowers an expression. With `reference`, elements and members yield references. -/
def lowerExpr (scope : Scope) : Expr → Bool → LowerM Lowered
  | .literal info value, _ => do
    let id ← literal info.ty value
    lowerConstant info (.literal id)
  | .variableRef info id, _ => lowerVariable scope info id
  | .functionRef info id, _ => lowerConstant info (.subroutine id)
  | .unary info operator operand, _ => do
    let lowered ← lowerExpr scope operand false
    let operand ← load operand.info lowered
    return .ofValue (← applyOperator (unaryOperator operator) info [operand])
  | .binary info operator lhs rhs, _ => do
    let lowered ← lowerExpr scope lhs false
    let left ← load lhs.info lowered
    let lowered ← lowerExpr scope rhs false
    let right ← load rhs.info lowered
    let (kind, swapped) := binaryOperator operator
    return .ofValue (← applyOperator kind info (if swapped then [right, left] else [left, right]))
  | .count info operator fixity target, _ =>
    if target.isPlace then do
      let lowered ← lowerExpr scope target true
      lowerCount info operator fixity lowered.value
    else do
      error .invalidIncrementTarget target.info.location
        "only variables, elements and members can be incremented or decremented"
      placeholder info
  | .assign info target value, _ =>
    if target.isPlace then do
      let lowered ← lowerExpr scope target true
      let source ← sourceOf value (lowerExpr scope value false)
      emit (.assign lowered.value source) info.location
      return lowered
    else do
      error .invalidAssignmentTarget target.info.location "only variables, elements and members can be assigned to"
      placeholder info
  | .call info (.functionRef _ id) arguments, _ => do
    let arguments ← lowerExprs scope arguments
    let result ← temporary info.ty
    emit (.call result id arguments) info.location
    return .ofValue result
  | .call info callee arguments, _ => do
    let lowered ← lowerExpr scope callee false
    let operands ← calleeOperands callee lowered
    let arguments ← lowerExprs scope arguments
    return .ofValue (← applyOperator .call info (operands ++ arguments))
  | .index info object position, reference => do
    let lowered ← lowerExpr scope object reference
    let object := lowered.value
    let lowered ← lowerExpr scope position false
    let position ← load position.info lowered
    let result ← applyOperator (if reference then .indexRef else .index) info [object, position]
    return ⟨result, some object, reference⟩
  | .member info object key, reference => do
    match ← memberName key with
    | some name =>
      let lowered ← lowerExpr scope object reference
      lowerMember info reference lowered.value name
    | none => placeholder info
  | .cast info value target, _ => do
    let lowered ← lowerExpr scope value false
    let value ← load value.info lowered
    lowerBuiltin info .cast (some target) target [value]
  | .make info target arguments, _ => do
    let arguments ← lowerExprs scope arguments
    lowerBuiltin info .make (some target) target arguments
  | .print info arguments, _ => do
    let arguments ← lowerExprs scope arguments
    emit (.builtin .print none none arguments) info.location
    placeholder info
  | .typeOf info value, _ => do
    let lowered ← lowerExpr scope value false
    let value ← load value.info lowered
    lowerBuiltin info .typeOf none info.ty [value]

/-- Lowers expressions to values, from left to right. -/
def lowerExprs (scope : Scope) : List Expr → LowerM (List ValueId)
  | [] => return []
  | expr :: rest => do
    let lowered ← lowerExpr scope expr false
    let value ← load expr.info lowered
    return value :: (← lowerExprs scope rest)

end

/-- Lowers an expression to a value. -/
def lowerValue (scope : Scope) (expr : Expr) : LowerM ValueId := do
  let lowered ← lowerExpr scope expr false
  load expr.info lowered

/-- Lowers the right hand side of an assignment. -/
def lowerSource (scope : Scope) (expr : Expr) : LowerM AssignSource := sourceOf expr (lowerExpr scope expr false)

end TagAsm.Lower
