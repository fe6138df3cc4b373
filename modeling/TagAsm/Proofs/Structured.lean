import TagAsm.Lower.Stmt
import TagAsm.Proofs.Walk

/-!
# Structured execution

What a statement does, without a graph. First the statement is planned: its shape stays, and every expression that is evaluated
as a whole is replaced by the statements it is lowered to, in the order in which they stand in the source. Then the plan is
executed as the language prescribes. The outcomes of tests come from an oracle, as in a walk. A plan need not come to an end,
so every loop is cut after so many rounds; with more rounds one sees more of the same execution.
-/

namespace TagAsm.Lower

open TagAsm.Flow
open Source (Stmt)

/-- What an expression that is evaluated as a whole becomes. -/
structure Root where
  id : Source.ExprId
  code : List Statement
  deriving DecidableEq, Repr

/-- What is seen when the expression is evaluated. -/
def Root.events (root : Root) : List Event := .expression root.id :: root.code.map .statement

/-- A statement whose expressions are lowered. -/
inductive Plan where
  | block (plans : List Plan)
  | branch (test : Root) (cond : ValueId) (pos : Plan) (neg : Option Plan)
  | whileLoop (test : Root) (cond : ValueId) (body : Plan)
  | doLoop (body : Plan) (test : Root) (cond : ValueId) (negated : Bool)
  | breakLoop
  /-- The value that is returned, and the statement that puts it into the return value. -/
  | returnValue (val : Option (Root × Statement))
  | expression (val : Root)
  deriving Repr

/-! ## Planning -/

/-- Lowers an expression and takes the statements that it became. -/
def planRoot {α : Type} (id : Source.ExprId) (lower : LowerM α) : LowerM (Root × α) := do
  let result ← lower
  let code ← modifyGet fun draft => (draft.code, { draft with code := [] })
  return (⟨id, code⟩, result)

mutual

/-- Plans a statement. -/
def planStmt (scope : Scope) : Stmt → LowerM Plan
  | .block _ statements => return .block (← planStmts scope statements)
  | .branch _ cond pos neg => do
    let (test, val) ← planRoot cond.info.id (lowerValue scope cond)
    let pos ← planStmt scope pos
    let neg ← planElse scope neg
    return .branch test val pos neg
  | .whileLoop _ cond body => do
    let (test, val) ← planRoot cond.info.id (lowerValue scope cond)
    let body ← planStmt scope body
    return .whileLoop test val body
  | .doLoop _ body cond negated => do
    let body ← planStmt scope body
    let (test, val) ← planRoot cond.info.id (lowerValue scope cond)
    return .doLoop body test val negated
  | .breakLoop _ => return .breakLoop
  | .returnValue _ none => return .returnValue none
  | .returnValue _ (some val) => do
    let (root, source) ← planRoot val.info.id (lowerSource scope val)
    return .returnValue (some (root, ⟨.assign scope.returnValue source, val.info.location⟩))
  | .expression _ val => do
    let (root, _) ← planRoot val.info.id (lowerExpr scope val false)
    return .expression root

/-- Plans statements, from first to last. -/
def planStmts (scope : Scope) : List Stmt → LowerM (List Plan)
  | [] => return []
  | statement :: rest => do
    let plan ← planStmt scope statement
    return plan :: (← planStmts scope rest)

/-- Plans the negative side of a branch. -/
def planElse (scope : Scope) : Option Stmt → LowerM (Option Plan)
  | none => return none
  | some neg => return some (← planStmt scope neg)

end

/-! ## Executing -/

/-- How an execution ended. -/
inductive Completion where
  /-- The next statement is up. -/
  | normal
  /-- The loop around is to be left. -/
  | broke
  /-- The function is to be left. -/
  | returned
  /-- A loop was not done after the rounds it had. -/
  | cut
  deriving DecidableEq, Repr

/-- What has been seen of an execution so far. -/
structure Trace where
  /-- How many tests the oracle has answered. -/
  tests : Nat
  events : List Event
  deriving DecidableEq, Repr

namespace Trace

/-- An expression is evaluated. -/
def evaluate (trace : Trace) (root : Root) : Trace := { trace with events := trace.events ++ root.events }

/-- A statement is executed. -/
def execute (trace : Trace) (stmt : Statement) : Trace :=
  { trace with events := trace.events ++ [.statement stmt] }

/-- An expression is evaluated, and its value tested. -/
def test (trace : Trace) (root : Root) (cond : ValueId) : Trace :=
  ⟨trace.tests + 1, trace.events ++ root.events ++ [.test cond]⟩

end Trace

/-- Runs rounds of a loop, up to so many, until one of them leaves it. -/
def repeatRounds (round : Trace → Completion × Trace) : Nat → Trace → Completion × Trace
  | 0, trace => (.cut, trace)
  | rounds + 1, trace =>
    match round trace with
    | (.normal, trace) => repeatRounds round rounds trace
    | (.broke, trace) => (.normal, trace)
    | (.returned, trace) => (.returned, trace)
    | (.cut, trace) => (.cut, trace)

mutual

/-- Executes a plan, with up to `rounds` rounds for every loop. `inLoop` tells whether there is a loop that a break can leave. -/
def Plan.exec (oracle : Nat → Bool) (rounds : Nat) : Plan → Bool → Trace → Completion × Trace
  | .block plans, inLoop, trace => Plan.execAll oracle rounds plans inLoop trace
  | .branch test cond pos neg, inLoop, trace =>
    if oracle trace.tests then pos.exec oracle rounds inLoop (trace.test test cond)
    else Plan.execElse oracle rounds neg inLoop (trace.test test cond)
  | .whileLoop test cond body, _, trace =>
    repeatRounds (fun trace =>
      if oracle trace.tests then body.exec oracle rounds true (trace.test test cond)
      else (.broke, trace.test test cond)) rounds trace
  | .doLoop body test cond negated, _, trace =>
    repeatRounds (fun trace =>
      match body.exec oracle rounds true trace with
      | (.normal, trace) => (if oracle trace.tests = negated then .broke else .normal, trace.test test cond)
      | (completion, trace) => (completion, trace)) rounds trace
  | .breakLoop, inLoop, trace => (if inLoop then .broke else .normal, trace)
  | .returnValue none, _, trace => (.returned, trace)
  | .returnValue (some (root, store)), _, trace => (.returned, (trace.evaluate root).execute store)
  | .expression root, _, trace => (.normal, trace.evaluate root)

/-- Executes plans, from first to last, until one of them does not complete normally. -/
def Plan.execAll (oracle : Nat → Bool) (rounds : Nat) : List Plan → Bool → Trace → Completion × Trace
  | [], _, trace => (.normal, trace)
  | plan :: rest, inLoop, trace =>
    match plan.exec oracle rounds inLoop trace with
    | (.normal, trace) => Plan.execAll oracle rounds rest inLoop trace
    | (completion, trace) => (completion, trace)

/-- Executes the negative side of a branch, if there is one. -/
def Plan.execElse (oracle : Nat → Bool) (rounds : Nat) : Option Plan → Bool → Trace → Completion × Trace
  | none, _, trace => (.normal, trace)
  | some plan, inLoop, trace => plan.exec oracle rounds inLoop trace

end

/-- The execution of a function body as a run: with more and more rounds for its loops. It is over once no loop was cut. -/
def Plan.run (plan : Plan) (oracle : Nat → Bool) : Run Event := fun rounds =>
  let (completion, trace) := plan.exec oracle rounds false ⟨0, []⟩
  ⟨trace.events, completion ≠ .cut⟩

end TagAsm.Lower
