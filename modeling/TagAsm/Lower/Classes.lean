import TagAsm.Diagnostic
import TagAsm.Flow.Basic

/-!
# Lowering classes

A class gets all that its parent has, then its own fields and methods. A method takes the place of the inherited method of
its name; any other two members of one name collide, except that a field which has collided with an inherited method is no
part of the class, so that a method of that name is not reported as well. A class with a collision is left out, and so is
every class below it. A class that is its own ancestor is reported once for the whole circle.
-/

namespace TagAsm.Lower

open TagAsm.Flow
open Source (Variable FunctionId)

/-- All members of a class, inherited ones first. -/
structure Members where
  fields : List Field
  methods : List Method
  deriving DecidableEq, Repr

namespace Members

/-- A class without members. -/
def none : Members := ⟨[], []⟩

/-- Whether there is a field of this name. -/
def hasField (members : Members) (name : String) : Bool := members.fields.any (·.name = name)

/-- Whether there is a method of this name. -/
def hasMethod (members : Members) (name : String) : Bool := members.methods.any (·.name = name)

def addField (members : Members) (field : Field) : Members := { members with fields := members.fields ++ [field] }

/-- Puts a method in the place of the method of its name, or at the end if there is none. -/
def putMethod (members : Members) (method : Method) : Members :=
  { members with
    methods :=
      if members.hasMethod method.name then
        members.methods.map fun old => if old.name = method.name then method else old
      else
        members.methods ++ [method] }

end Members

/-- What a member's name was already taken by. -/
inductive Collision where
  | inheritedField
  | inheritedMethod
  | otherField
  | ownField
  | otherMethod
  deriving DecidableEq, Repr

/-- The collision as messages show it. -/
def Collision.text : Collision → String
  | .inheritedField => "an inherited field"
  | .inheritedMethod => "an inherited method"
  | .otherField => "another field"
  | .ownField => "a field"
  | .otherMethod => "another method"

/-- The error about a member whose name was taken. -/
def Collision.report (collision : Collision) (className : String) (member : Symbol) : Diagnostic :=
  .error .lowering .duplicateMember member.location
    ("`" ++ member.name ++ "` in class `" ++ className ++ "` collides with " ++ collision.text)

/-- What a field's name was taken by, given the inherited members and all members so far. -/
def fieldCollision? (inherited members : Members) (name : String) : Option Collision :=
  if inherited.hasField name then some .inheritedField
  else if inherited.hasMethod name then some .inheritedMethod
  else if members.hasField name then some .otherField
  else none

/-- What a method's name was taken by, given the inherited members, all members so far and the class's own method names. -/
def methodCollision? (inherited members : Members) (own : List String) (name : String) : Option Collision :=
  if inherited.hasField name then some .inheritedField
  else if members.hasField name then some .ownField
  else if name ∈ own then some .otherMethod
  else none

/-- A class while its own members are added. -/
structure Merging where
  members : Members
  /-- The names of the methods that the class itself added. -/
  own : List String
  /-- The collisions so far. -/
  errors : Diagnostics
  deriving DecidableEq, Repr

/-- Adds one of the class's own fields. -/
def mergeField (className : String) (inherited : Members) (merging : Merging) (field : Variable) : Merging :=
  match fieldCollision? inherited merging.members field.symbol.name with
  | some collision => { merging with errors := merging.errors ++ [collision.report className field.symbol] }
  | none => { merging with members := merging.members.addField ⟨field.symbol.name, field.ty⟩ }

/-- Adds one of the class's own methods. -/
def mergeMethod (className : String) (inherited : Members) (merging : Merging) (method : Symbol × FunctionId) : Merging :=
  match methodCollision? inherited merging.members merging.own method.1.name with
  | some collision => { merging with errors := merging.errors ++ [collision.report className method.1] }
  | none =>
    { merging with
      members := merging.members.putMethod ⟨method.1.name, method.2⟩
      own := merging.own ++ [method.1.name] }

/-- Adds all of the class's own members to what it inherits. -/
def mergeOwn (className : String) (inherited : Members) (fields : List Variable) (methods : List (Symbol × FunctionId)) :
    Merging :=
  methods.foldl (mergeMethod className inherited)
    (fields.foldl (mergeField className inherited) ⟨inherited, [], []⟩)

/-- The classes merged so far, those left out included, and the errors so far. -/
structure ClassState where
  merged : List (ClassId × Option Members)
  diagnostics : Diagnostics
  deriving DecidableEq, Repr

/-- The error about a class that is its own ancestor. -/
def cycleReport (symbol : Symbol) : Diagnostic :=
  .error .lowering .cyclicInheritance symbol.location ("class `" ++ symbol.name ++ "` inherits from itself")

/-- The members of a class whose parent has the members `inherited`, or none if the parent was left out. -/
def mergeBelow (program : Source.Program) (decl : Source.ClassDecl) (inherited : Option Members) (state : ClassState) :
    Except Fault (Option Members × ClassState) :=
  match inherited with
  | none => .ok (none, state)
  | some inherited => do
    let methods ← decl.methods.mapM fun id => return ((← program.function id).symbol, id)
    let merging := mergeOwn decl.symbol.name inherited decl.fields methods
    let members := if merging.errors.isEmpty then some merging.members else none
    return (members, { state with diagnostics := state.diagnostics ++ merging.errors })

/-- Merges a class, its ancestors first. `path` is the set of the classes in progress: those below it that are waiting for it. A class
is in it for the time that its parent is merged, so it is handed down to the parent. Each of them is a class of the program and
none stands there twice, so `fuel` need not exceed the number of classes, and one. -/
def mergeClass (program : Source.Program) :
    Nat → List ClassId → ClassId → ClassState → Except Fault (Option Members × ClassState)
  | 0, _, _, state => .ok (none, state)
  | fuel + 1, path, id, state =>
    match state.merged.lookup id with
    | some members => .ok (members, state)
    | none => do
      let decl ← program.classDecl id
      if id ∈ path then
        return (none, { state with diagnostics := state.diagnostics ++ [cycleReport decl.symbol] })
      let (inherited, state) ←
        match decl.parent with
        | some parent => mergeClass program fuel (id :: path) parent state
        | none => pure (some Members.none, state)
      let (members, state) ← mergeBelow program decl inherited state
      return (members, { state with merged := (id, members) :: state.merged })

/-- Merges one class and adds it to the list unless it is left out. -/
def lowerClass (program : Source.Program) (acc : List ClassLayout × ClassState) (entry : ClassId × Source.ClassDecl) :
    Except Fault (List ClassLayout × ClassState) := do
  let (id, decl) := entry
  let (members, state) ← mergeClass program (program.classes.length + 1) [] id acc.2
  match members with
  | some members => return (acc.1 ++ [⟨decl.symbol, decl.ty, members.fields, members.methods⟩], state)
  | none => return (acc.1, state)

/-- The classes of a program in their order, without those that are left out, and the diagnostics with what went wrong. -/
def lowerClasses (program : Source.Program) (diagnostics : Diagnostics) :
    Except Fault (List ClassLayout × Diagnostics) := do
  let (classes, state) ← program.classes.entries.foldlM (lowerClass program) ([], ⟨[], diagnostics⟩)
  return (classes, state.diagnostics)

end TagAsm.Lower
