import TagAsm.Proofs.WellFormed
import TagAsm.Source.Builder

/-!
# What can be built

A program is built by the operations of a builder, in any order and with any arguments. What every operation keeps, all programs that
can be built have. Here that is where functions come from: a function is native exactly if it was imported, and then it goes by its own
name; with or without a body, all others are functions of the program.
-/

namespace TagAsm.Source

/-- An operation of the builder, with what it results in. -/
inductive Call : Type → Type where
  | setLine (line : UInt32) : Call Unit
  | voidType : Call TypeId
  | dynamicType : Call TypeId
  | primitiveType (kind : Primitive) : Call TypeId
  | arrayType (element : TypeId) : Call TypeId
  | functionType (params : List TypeId) (ret : TypeId) : Call TypeId
  | function (name : String) (params : List (String × TypeId)) (ret : TypeId) : Call FunctionId
  | method (classId : ClassId) (name : String) (params : List (String × TypeId)) (ret : TypeId) : Call FunctionId
  | declare (name : String) (params : List TypeId) (ret : TypeId) : Call FunctionId
  | importFrom (library name : String) (params : List TypeId) (ret : TypeId) : Call FunctionId
  | parameter (id : FunctionId) (position : Nat) : Call VariableId
  | addLocal (id : FunctionId) (name : String) (ty : TypeId) : Call VariableId
  | define (id : FunctionId) (body : Stmt) : Call Unit
  | setEntry (id : FunctionId) : Call Unit
  | addClass (name : String) (parent : Option ClassId) (fields : List (String × TypeId)) : Call ClassId
  | classType (id : ClassId) : Call TypeId
  | literal (val : LiteralValue) : Call Expr
  | variableRef (id : FunctionId) (num : VariableId) : Call Expr
  | functionRef (id : FunctionId) : Call Expr
  | unary (op : UnaryOperator) (opd : Expr) : Call Expr
  | binary (op : BinaryOperator) (lhs rhs : Expr) : Call Expr
  | count (op : StepOperator) (fixity : Fixity) (tgt : Expr) : Call Expr
  | assign (tgt val : Expr) : Call Expr
  | call (callee : Expr) (args : List Expr) : Call Expr
  | callFunction (id : FunctionId) (args : List Expr) : Call Expr
  | index (obj position : Expr) : Call Expr
  | memberAt (obj key : Expr) : Call Expr
  | member (obj : Expr) (name : String) : Call Expr
  | cast (val : Expr) (tgt : TypeId) : Call Expr
  | make (tgt : TypeId) (args : List Expr) : Call Expr
  | print (args : List Expr) : Call Expr
  | typeOf (val : Expr) : Call Expr
  | block (stmts : List Stmt) : Call Stmt
  | branch (cond : Expr) (pos : Stmt) (neg : Option Stmt) : Call Stmt
  | whileLoop (cond : Expr) (body : Stmt) : Call Stmt
  | doLoop (body : Stmt) (cond : Expr) (negated : Bool) : Call Stmt
  | breakLoop : Call Stmt
  | returnValue (val : Option Expr) : Call Stmt
  | expression (val : Expr) : Call Stmt

/-- Makes the call. -/
def Call.run : {α : Type} → Call α → Build α
  | _, .setLine line => Build.setLine line
  | _, .voidType => Build.voidType
  | _, .dynamicType => Build.dynamicType
  | _, .primitiveType kind => Build.primitiveType kind
  | _, .arrayType element => Build.arrayType element
  | _, .functionType params ret => Build.functionType params ret
  | _, .function name params ret => Build.function name params ret
  | _, .method classId name params ret => Build.method classId name params ret
  | _, .declare name params ret => Build.declare name params ret
  | _, .importFrom library name params ret => Build.importFrom library name params ret
  | _, .parameter id position => Build.parameter id position
  | _, .addLocal id name ty => Build.addLocal id name ty
  | _, .define id body => Build.define id body
  | _, .setEntry id => Build.setEntry id
  | _, .addClass name parent fields => Build.addClass name parent fields
  | _, .classType id => Build.classType id
  | _, .literal val => Build.literal val
  | _, .variableRef id number => Build.variableRef id number
  | _, .functionRef id => Build.functionRef id
  | _, .unary op operand => Build.unary op operand
  | _, .binary op lhs rhs => Build.binary op lhs rhs
  | _, .count op fixity tgt => Build.count op fixity tgt
  | _, .assign tgt val => Build.assign tgt val
  | _, .call callee args => Build.call callee args
  | _, .callFunction id args => Build.callFunction id args
  | _, .index obj position => Build.index obj position
  | _, .memberAt obj key => Build.memberAt obj key
  | _, .member obj name => Build.member obj name
  | _, .cast val tgt => Build.cast val tgt
  | _, .make tgt args => Build.make tgt args
  | _, .print args => Build.print args
  | _, .typeOf val => Build.typeOf val
  | _, .block statements => Build.block statements
  | _, .branch cond positive negative => Build.branch cond positive negative
  | _, .whileLoop cond body => Build.whileLoop cond body
  | _, .doLoop body cond negated => Build.doLoop body cond negated
  | _, .breakLoop => Build.breakLoop
  | _, .returnValue val => Build.returnValue val
  | _, .expression val => Build.expression val

/-- The expressions that a call made, given what it resulted in. A function that is called by its id is made an expression before the
call itself, and so is a name of a member. -/
def Call.made : {α : Type} → Call α → α → List Expr
  | _, .callFunction .., .call info callee args => [callee, .call info callee args]
  | _, .member .., .member info obj key => [key, .member info obj key]
  | _, .literal .., made | _, .variableRef .., made | _, .functionRef .., made | _, .unary .., made | _, .binary .., made
  | _, .count .., made | _, .assign .., made | _, .call .., made | _, .callFunction .., made | _, .index .., made
  | _, .memberAt .., made | _, .member .., made | _, .cast .., made | _, .make .., made | _, .print .., made
  | _, .typeOf .., made => [made]
  | _, _, _ => []

/-- Steps that use the operations of the builder only. -/
inductive Build.Builds : {α : Type} → Build α → Prop where
  | pure {α : Type} (res : α) : Builds (pure res : Build α)
  | bind {α β : Type} {first : Build α} {next : α → Build β} (hfirst : Builds first) (hnext : ∀ res, Builds (next res)) :
    Builds (first >>= next)
  | call {α : Type} (call : Call α) : Builds call.run

/-! ## Where functions come from -/

/-- An imported function is native, and goes by its own name; all others are not native. -/
def Function.IsBuilt (fn : Function) : Prop :=
  match fn.kind with
  | .imported _ entryPoint => fn.linkage = .foreign ∧ entryPoint = none
  | .declared | .defined .. => fn.linkage = .internal

/-- All functions are as they can be built. -/
def Builder.Sorted (bld : Builder) : Prop := ∀ fn ∈ bld.program.functions, fn.IsBuilt

/-! ## What operations find -/

namespace Build

variable {id : FunctionId} {bld after : Builder} {fn : Function}

theorem getFunction_eq_ok (h : (getFunction id).run bld = .ok (fn, after)) : after = bld ∧ bld.program.functions[id]? = some fn := by
  obtain ⟨found, hf, h⟩ := of_bind_eq_ok h
  cases h
  exact ⟨rfl, Table.fetch_eq_ok_iff.mp hf⟩

theorem getClass_eq_ok {id : ClassId} {decl : ClassDecl} (h : (getClass id).run bld = .ok (decl, after)) :
    after = bld ∧ bld.program.classes[id]? = some decl := by
  obtain ⟨found, hf, h⟩ := of_bind_eq_ok h
  cases h
  exact ⟨rfl, Table.fetch_eq_ok_iff.mp hf⟩

theorem putFunction_eq_ok (h : bld.putFunction id fn = .ok after) :
    after = { bld with program.functions := bld.program.functions.set id fn } := by
  obtain ⟨functions, hput, h⟩ := of_bind_eq_ok h
  cases h
  unfold Table.put Table.put? at hput
  split at hput
  · rename_i rows hr
    cases hput
    split at hr
    · cases hr
      rfl
    · cases hr
  · cases hput

theorem setKind_eq_ok {kind : FunctionKind} {res : Unit} (h : (setKind id kind).run bld = .ok (res, after)) :
    ∃ fn, bld.program.functions[id]? = some fn ∧
      after = { bld with program.functions := bld.program.functions.set id { fn with kind } } := by
  obtain ⟨⟨fn, mid⟩, hget, hr⟩ := of_bind_eq_ok h
  obtain ⟨rfl, hf⟩ := getFunction_eq_ok hget
  obtain ⟨⟨replaced, later⟩, hl, hset⟩ := of_bind_eq_ok hr
  cases hset
  obtain ⟨found, hput, hp⟩ := of_bind_eq_ok hl
  obtain ⟨rfl, -⟩ := ok_pair_inj hp
  exact ⟨fn, hf, putFunction_eq_ok hput⟩

variable {change : List Variable → List Variable → Stmt → FunctionKind}

/-- A function that gets another body has one. -/
theorem update_eq_ok {res : Unit} (h : (update id change).run bld = .ok (res, after)) :
    ∃ fn params locals body, bld.program.functions[id]? = some fn ∧ fn.kind = .defined params locals body ∧ after = { bld with
        program.functions := bld.program.functions.set id { fn with kind := change params locals body } } := by
  obtain ⟨⟨fn, mid⟩, hget, hr⟩ := of_bind_eq_ok h
  obtain ⟨rfl, hf⟩ := getFunction_eq_ok hget
  dsimp only at hr
  cases hk : fn.kind with
  | declared | imported =>
    rw [hk] at hr
    cases hr
  | defined params locals body =>
    rw [hk] at hr
    obtain ⟨found, hfn, rfl⟩ := setKind_eq_ok hr
    cases hf.symm.trans hfn
    exact ⟨fn, params, locals, body, hf, hk, rfl⟩

end Build

end TagAsm.Source
