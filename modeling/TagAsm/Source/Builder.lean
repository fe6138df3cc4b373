import TagAsm.Source.Basic

/-!
# Building source programs

Operations that build a source program piece by piece, for those who have no front end. The builder interns types, numbers
expressions and variables, and gives each expression its type. Functions and classes are added to the program at once;
expressions and statements are values, and a function body becomes part of the program when the function is defined. All
that is built is attributed to the current line of one file that exists in memory only.
-/

namespace TagAsm.Source

/-- A program under construction. -/
structure Builder where
  program : Program
  /-- The line that new constructs are attributed to. -/
  line : UInt32
  /-- The number of the next expression. -/
  nextExpr : ExprId
  /-- The number of the next variable, for functions that have had one. Newer entries stand in front. -/
  nextVariable : List (FunctionId × VariableId)
  deriving Repr

namespace Builder

/-- The builder of a program without functions and classes. -/
def empty : Builder := ⟨⟨[⟨.memory⟩], .empty, [], [], none⟩, 1, 0, []⟩

/-- The position of the current line. -/
def location (builder : Builder) : Location := ⟨some 0, builder.line, 1⟩

/-- A name that is declared on the current line. -/
def symbol (builder : Builder) (name : String) : Symbol := ⟨name, builder.location⟩

/-- The number that the next variable of a function gets. -/
def counter (builder : Builder) (id : FunctionId) : VariableId := (builder.nextVariable.lookup id).getD 0

/-- Replaces the function with this id. -/
def putFunction (builder : Builder) (id : FunctionId) (function : Function) : Except Fault Builder := do
  let functions ← builder.program.functions.put .function id function
  return { builder with program := { builder.program with functions } }

end Builder

/-- A step of building a program. -/
abbrev Build := StateT Builder (Except Fault)

namespace Build

/-- Attributes what follows to a line. -/
def setLine (line : UInt32) : Build Unit := modify fun builder => { builder with line }

/-! ## Types -/

/-- The id of a type. -/
def type (kind : TypeKind) : Build TypeId := do
  let builder ← get
  let (id, types) := builder.program.types.intern kind
  set { builder with program := { builder.program with types } }
  return id

/-- The type without values. -/
def voidType : Build TypeId := type .void

/-- The type of all values. -/
def dynamicType : Build TypeId := type .dynamic

def primitiveType (kind : Primitive) : Build TypeId := type (.primitive kind)

/-- The type of arrays of one type of elements. -/
def arrayType (element : TypeId) : Build TypeId := type (.array element)

/-- The type of functions with these parameters. -/
def functionType (parameters : List TypeId) (returnType : TypeId) : Build TypeId :=
  type (.function parameters returnType)

/-! ## Functions and classes -/

/-- The function with this id. -/
def getFunction (id : FunctionId) : Build Function := do
  liftM ((← get).program.function id)

/-- The class with this id. -/
def getClass (id : ClassId) : Build ClassDecl := do
  liftM ((← get).program.classDecl id)

def addFunction (name : String) (parameters : List TypeId) (returnType : TypeId) (linkage : Linkage) (isMethod : Bool)
    (kind : FunctionKind) : Build FunctionId := do
  let ty ← functionType parameters returnType
  modifyGet fun builder =>
    let functions := builder.program.functions
    (functions.nextId,
      { builder with
        program.functions := functions.push ⟨builder.symbol name, ty, linkage, isMethod, kind⟩ })

/-- A new variable of a function. -/
def newVariable (id : FunctionId) (declared : String × TypeId) : Build Variable :=
  modifyGet fun builder =>
    let number := builder.counter id
    (⟨number, builder.symbol declared.1, declared.2⟩,
      { builder with nextVariable := (id, advanceId number 1) :: builder.nextVariable })

/-- Changes what a function is. -/
def setKind (id : FunctionId) (kind : FunctionKind) : Build Unit := do
  let function ← getFunction id
  set (← liftM ((← get).putFunction id { function with kind }))

/-- Adds a function with a body, which is empty at first. Its parameters are its first variables. They belong to the function,
so it is declared before they are. -/
def addDefined (name : String) (parameters : List (String × TypeId)) (returnType : TypeId) (isMethod : Bool) :
    Build FunctionId := do
  let location := (← get).location
  let id ← addFunction name (parameters.map (·.2)) returnType .internal isMethod .declared
  let parameters ← parameters.mapM (newVariable id)
  setKind id (.defined parameters [] (.block location []))
  return id

/-- Adds a function with a body. -/
def function (name : String) (parameters : List (String × TypeId)) (returnType : TypeId) : Build FunctionId :=
  addDefined name parameters returnType false

/-- Adds a method to a class. Its first parameter is the receiver, under the name `self`. -/
def method (classId : ClassId) (name : String) (parameters : List (String × TypeId)) (returnType : TypeId) :
    Build FunctionId := do
  let receiver := (← getClass classId).ty
  let id ← addDefined name (("self", receiver) :: parameters) returnType true
  modify fun builder =>
    { builder with
      program.classes := builder.program.classes.modify classId fun decl =>
        { decl with methods := decl.methods ++ [id] } }
  return id

/-- Adds a function whose body is elsewhere. -/
def declare (name : String) (parameters : List TypeId) (returnType : TypeId) : Build FunctionId :=
  addFunction name parameters returnType .internal false .declared

/-- Adds a function of a native library. -/
def importFrom (library name : String) (parameters : List TypeId) (returnType : TypeId) : Build FunctionId :=
  addFunction name parameters returnType .foreign false (.imported library none)

/-- The parameter at a position. -/
def parameter (id : FunctionId) (position : Nat) : Build VariableId := do
  match (← getFunction id).kind with
  | .defined parameters _ _ =>
    match parameters[position]? with
    | some decl => return decl.id
    | none => throw (.outOfRange .variable position)
  | _ => throw (.noBody id)

/-- Replaces what a function with a body consists of. -/
def update (id : FunctionId) (change : List Variable → List Variable → Stmt → FunctionKind) : Build Unit := do
  match (← getFunction id).kind with
  | .defined parameters locals body => setKind id (change parameters locals body)
  | _ => throw (.noBody id)

/-- Adds a local variable to a function. -/
def addLocal (id : FunctionId) (name : String) (ty : TypeId) : Build VariableId := do
  let declared ← newVariable id (name, ty)
  update id fun parameters locals body => .defined parameters (locals ++ [declared]) body
  return declared.id

/-- Gives a function its body. -/
def define (id : FunctionId) (body : Stmt) : Build Unit :=
  update id fun parameters locals _ => .defined parameters locals body

/-- Makes a function the entry of the program. -/
def setEntry (id : FunctionId) : Build Unit :=
  modify fun builder => { builder with program.entry := some id }

/-- Adds a class without methods. Its fields are numbered from zero. -/
def addClass (name : String) (parent : Option ClassId) (fields : List (String × TypeId)) : Build ClassId := do
  let id := (← get).program.classes.nextId
  let ty ← type (.classType id [])
  modify fun builder =>
    let fields := fields.zipIdx.map fun ((name, ty), position) => ⟨advanceId 0 position, builder.symbol name, ty⟩
    { builder with program.classes := builder.program.classes.push ⟨builder.symbol name, ty, parent, fields, []⟩ }
  return id

/-- The type of the instances of a class. -/
def classType (id : ClassId) : Build TypeId := return (← getClass id).ty

/-! ## Expressions -/

/-- The number, type and position of a new expression. -/
def info (ty : TypeId) : Build ExprInfo :=
  modifyGet fun builder =>
    (⟨builder.nextExpr, ty, builder.location⟩, { builder with nextExpr := advanceId builder.nextExpr 1 })

/-- A literal, of the primitive type that it belongs to. -/
def literal (value : LiteralValue) : Build Expr := do
  return .literal (← info (← primitiveType value.primitive)) value

/-- A variable of a function. It has the type that it was declared with, and none in particular if the function has no such
variable. -/
def variableRef (id : FunctionId) (number : VariableId) : Build Expr := do
  let declared : Option Variable :=
    match (← getFunction id).kind with
    | .defined parameters locals _ => (parameters ++ locals).find? (·.id = number)
    | _ => none
  let ty ← match declared with
    | some decl => pure decl.ty
    | none => dynamicType
  return .variableRef (← info ty) number

/-- A function as a value. -/
def functionRef (id : FunctionId) : Build Expr := do
  return .functionRef (← info (← getFunction id).ty) id

/-- A negation yields a truth value, and all other operators what their operand is. -/
def unary (operator : UnaryOperator) (operand : Expr) : Build Expr := do
  let ty ← match operator with
    | .not => primitiveType .bool
    | _ => pure operand.info.ty
  return .unary (← info ty) operator operand

/-- Comparisons and logical operators yield truth values, and all others what their left operand is. -/
def binary (operator : BinaryOperator) (lhs rhs : Expr) : Build Expr := do
  let ty ← match operator with
    | .logicalOr | .logicalAnd | .equal | .notEqual | .less | .lessEqual | .greater | .greaterEqual =>
      primitiveType .bool
    | _ => pure lhs.info.ty
  return .binary (← info ty) operator lhs rhs

/-- Counting yields what is counted. -/
def count (operator : StepOperator) (fixity : Fixity) (target : Expr) : Build Expr := do
  return .count (← info target.info.ty) operator fixity target

/-- An assignment yields what is assigned to. -/
def assign (target value : Expr) : Build Expr := do
  return .assign (← info target.info.ty) target value

/-- A call yields what the type of the callee says, and anything if that is no function type. -/
def call (callee : Expr) (arguments : List Expr) : Build Expr := do
  let ty ← match ← liftM ((← get).program.types.signature callee.info.ty) with
    | some (_, returnType) => pure returnType
    | none => dynamicType
  return .call (← info ty) callee arguments

/-- A call of a function by its id. -/
def callFunction (id : FunctionId) (arguments : List Expr) : Build Expr := do
  call (← functionRef id) arguments

/-- An element of an array has the type of its elements, and an element of anything else any type. -/
def index (object position : Expr) : Build Expr := do
  let ty ← match ← liftM ((← get).program.types.get object.info.ty) with
    | .array element => pure element
    | _ => dynamicType
  return .index (← info ty) object position

/-- A member by its key, which has any type. -/
def memberAt (object key : Expr) : Build Expr := do
  return .member (← info (← dynamicType)) object key

/-- A member by its name. -/
def member (object : Expr) (name : String) : Build Expr := do
  memberAt object (← literal (.string name))

/-- A conversion yields the type that is asked for. -/
def cast (value : Expr) (target : TypeId) : Build Expr := do
  return .cast (← info target) value target

/-- A new value of a type. -/
def make (target : TypeId) (arguments : List Expr) : Build Expr := do
  return .make (← info target) target arguments

/-- Showing values yields nothing. -/
def print (arguments : List Expr) : Build Expr := do
  return .print (← info (← voidType)) arguments

/-- The name of a type is a string. -/
def typeOf (value : Expr) : Build Expr := do
  return .typeOf (← info (← primitiveType .string)) value

/-! ## Statements -/

/-- The position of the current line. -/
def here : Build Location := return (← get).location

/-- Statements in a row. -/
def block (statements : List Stmt) : Build Stmt := return .block (← here) statements

/-- A branch, with or without a negative side. -/
def branch (condition : Expr) (positive : Stmt) (negative : Option Stmt) : Build Stmt :=
  return .branch (← here) condition positive negative

/-- A loop that tests before its body. -/
def whileLoop (condition : Expr) (body : Stmt) : Build Stmt := return .whileLoop (← here) condition body

/-- A loop that tests after its body. -/
def doLoop (body : Stmt) (condition : Expr) (negated : Bool) : Build Stmt :=
  return .doLoop (← here) body condition negated

/-- Leaves the innermost loop. -/
def breakLoop : Build Stmt := return .breakLoop (← here)

/-- Leaves the function, with or without a value. -/
def returnValue (value : Option Expr) : Build Stmt := return .returnValue (← here) value

/-- An expression that is evaluated for what it does. -/
def expression (value : Expr) : Build Stmt := return .expression (← here) value

end Build

end TagAsm.Source
