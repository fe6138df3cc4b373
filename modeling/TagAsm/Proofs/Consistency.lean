import TagAsm.Proofs.Building
import TagAsm.Proofs.Interning

/-!
# Built programs are consistent

However a program is built, its parts agree with each other. Expressions are numbered in order, and so are the variables of a function,
each up to the 32 bits of a number. No type stands in the table twice. The type of a function is that of its parameters, and the methods of the classes
are the functions that are marked as such, each in one class and with an instance of it as its first parameter.

The operations are many, but they do to a builder one of few things. Those are told first, and what each of them keeps, all operations
keep, in any order.
-/

namespace TagAsm

open List Table

theorem TypeTable.nodup_intern {table : TypeTable} (h : table.types.Nodup) (kind : TypeKind) : (table.intern kind).2.types.Nodup := by
  rw [types_intern]
  split
  · rwa [append_nil]
  · rename_i ha
    rw [← concat_eq_append]
    exact (nodup_concat _ _).mpr ⟨ha, h⟩

/-- The rows after one was added are those before and the new one. -/
theorem Table.getElem?_push_eq_some {α : Type} {rows : Table α} {row found : α} {id : Nat} (h : (rows.push row)[id]? = some found) :
    rows[id]? = some found ∨ id = rows.length ∧ found = row := by
  obtain ⟨hlt, hfn⟩ := List.getElem?_eq_some_iff.mp h
  rcases Nat.lt_or_ge id rows.length with hold | hnew
  · exact .inl (by rw [← h, Table.getElem?_push_of_lt hold])
  · obtain rfl : id = rows.length := by
      rw [Table.length_push] at hlt
      omega
    have hrow := Table.getElem?_push_nextId rows row
    exact .inr ⟨rfl, Option.some.inj (h.symm.trans hrow)⟩

/-- The row just added can be replaced. -/
theorem Table.set_push {α : Type} (rows : Table α) (row new : α) : (rows.push row).set rows.length new = rows.push new := by
  simp [Table.push]

namespace Source

/-! ## Numbers of 32 bits -/

/-- Numbers that are counted up from `first`, each cut to 32 bits. -/
def numbered (first count : Nat) : List Nat := (List.range' first count).map (· % UInt32.size)

theorem numbered_append (first count more : Nat) :
    numbered first count ++ numbered (first + count) more = numbered first (count + more) := by
  unfold numbered
  rw [← map_append, range'_append_1]

/-- As long as there are enough numbers, none is cut. -/
theorem numbered_eq_range {count : Nat} (h : count ≤ UInt32.size) : numbered 0 count = List.range count := by
  unfold numbered
  rw [← range_eq_range']
  refine (map_congr_left fun num hn => ?_).trans (map_id _)
  exact Nat.mod_eq_of_lt (Nat.lt_of_lt_of_le (mem_range.mp hn) h)

/-- Of more numbers than there are, some are the same. -/
theorem not_nodup_numbered {count : Nat} (h : UInt32.size < count) : ¬ (numbered 0 count).Nodup := by
  intro hnd
  have hle : (numbered 0 count).length ≤ UInt32.size := Flow.length_le_of_nodup_of_lt hnd fun num hn => by
    obtain ⟨whole, -, rfl⟩ := mem_map.mp hn
    exact Nat.mod_lt _ (by decide)
  rw [numbered, length_map, length_range'] at hle
  omega

theorem advanceId_mod (count : Nat) : advanceId (count % UInt32.size) 1 = (count + 1) % UInt32.size := Nat.mod_add_mod _ _ _

/-! ## Consistent programs -/

/-- What has a body has parameters of these types, and variables that are numbered in order. -/
def FunctionKind.Fits (params : List TypeId) : FunctionKind → Prop
  | .defined formals locals _ =>
    formals.map (·.ty) = params ∧ (formals ++ locals).map (·.id) = numbered 0 (formals.length + locals.length)
  | .declared | .imported .. => True

/-- The type is that of a function, and of its parameters. -/
def Function.Fits (types : TypeTable) (fn : Function) : Prop :=
  ∃ params ret, types.types[fn.ty]? = some (.function params ret) ∧ fn.kind.Fits params

/-- The function has a first parameter, of this type. -/
def Function.Receives (fn : Function) (ty : TypeId) : Prop :=
  ∃ receiver params locals body, fn.kind = .defined (receiver :: params) locals body ∧ receiver.ty = ty

/-- The function is among the methods of the class. -/
def Program.Owns (prog : Program) (classId : ClassId) (id : FunctionId) : Prop :=
  ∃ decl, prog.classes[classId]? = some decl ∧ id ∈ decl.methods

/-- The parts of a program agree with each other. -/
structure Program.Consistent (prog : Program) : Prop where
  types_nodup : prog.types.types.Nodup
  functions_fit : ∀ fn ∈ prog.functions, fn.Fits prog.types
  /-- Methods are functions of the program. -/
  owned_lt : ∀ classId id, prog.Owns classId id → id < prog.functions.length
  isMethod_iff : ∀ id fn, prog.functions[id]? = some fn → (fn.isMethod = true ↔ ∃ classId, prog.Owns classId id)
  owner_unique : ∀ id classId other, prog.Owns classId id → prog.Owns other id → other = classId
  methods_nodup : ∀ decl ∈ prog.classes, decl.methods.Nodup
  receives : ∀ (classId : ClassId) (decl : ClassDecl) (id : FunctionId) (fn : Function),
    prog.classes[classId]? = some decl → id ∈ decl.methods → prog.functions[id]? = some fn → fn.Receives decl.ty

variable {types : TypeTable} {function : Function}

/-- What fits stays so while types are added. -/
theorem Function.Fits.intern (h : function.Fits types) (kind : TypeKind) : function.Fits (types.intern kind).2 := by
  obtain ⟨params, ret, hty, hk⟩ := h
  have hlt := (List.getElem?_eq_some_iff.mp hty).1
  exact ⟨params, ret, by rw [types.types_intern, getElem?_append_left hlt, hty], hk⟩

/-- A function with a body keeps fitting when its body is replaced and variables are added to it in order. -/
theorem Function.Fits.revise (h : function.Fits types) {params locals extra : List Variable} {body : Stmt}
    (hk : function.kind = .defined params locals body)
    (he : extra.map (·.id) = numbered (params.length + locals.length) extra.length) (replaced : Stmt) :
    Fits types { function with kind := .defined params (locals ++ extra) replaced } := by
  obtain ⟨sig, ret, hty, hf⟩ := h
  rw [hk] at hf
  obtain ⟨hp, hn⟩ := hf
  refine ⟨sig, ret, hty, hp, ?_⟩
  calc (params ++ (locals ++ extra)).map (·.id)
      = (params ++ locals).map (·.id) ++ extra.map (·.id) := by simp
    _ = numbered 0 (params.length + locals.length) ++ numbered (0 + (params.length + locals.length)) extra.length := by
        rw [hn, he, Nat.zero_add]
    _ = numbered 0 (params.length + (locals ++ extra).length) := by
        rw [numbered_append, length_append, Nat.add_assoc]

namespace Program.Consistent

variable {program : Program}

theorem intern (h : program.Consistent) (kind : TypeKind) : Consistent { program with types := (program.types.intern kind).2 } where
  __ := h
  types_nodup := TypeTable.nodup_intern h.types_nodup kind
  functions_fit function hfn := (h.functions_fit function hfn).intern kind

theorem setEntry (h : program.Consistent) (entry : Option FunctionId) : Consistent { program with entry } where
  __ := h

/-- No class lists a function before it is there. -/
theorem not_owns_length (h : program.Consistent) (classId : ClassId) : ¬ program.Owns classId program.functions.length :=
  fun ho => Nat.lt_irrefl _ (h.owned_lt classId _ ho)

variable {function : Function}

section

variable (h : program.Consistent) (hf : function.Fits program.types)
include h hf

theorem fits_push : ∀ listed ∈ program.functions.push function, listed.Fits program.types := by
  intro listed hl
  rcases mem_append.mp hl with hold | hnew
  · exact h.functions_fit listed hold
  · rw [mem_singleton.mp hnew]
    exact hf

/-- A function that is no method is added. -/
theorem addFunction (hp : function.isMethod = false) : Consistent { program with functions := program.functions.push function } where
  __ := h
  functions_fit := h.fits_push hf
  owned_lt classId id ho := by
    rw [length_push]
    exact Nat.lt_succ_of_lt (h.owned_lt classId id ho)
  isMethod_iff id found hfn := by
    rcases getElem?_push_eq_some hfn with hold | ⟨rfl, rfl⟩
    · exact h.isMethod_iff id found hold
    · rw [hp]
      refine ⟨fun hm => absurd hm (by decide), fun how => ?_⟩
      obtain ⟨classId, ho⟩ := how
      exact absurd ho (h.not_owns_length classId)
  receives classId decl id found hd hid hfn := by
    rcases getElem?_push_eq_some hfn with hold | ⟨rfl, -⟩
    · exact h.receives classId decl id found hd hid hold
    · exact absurd ⟨decl, hd, hid⟩ (h.not_owns_length classId)

end

theorem addClass (h : program.Consistent) {decl : ClassDecl} (hm : decl.methods = []) :
    Consistent { program with classes := program.classes.push decl } := by
  have ho : ∀ classId id, Owns { program with classes := program.classes.push decl } classId id ↔ program.Owns classId id := by
    intro classId id
    constructor
    · rintro ⟨found, hfn, hid⟩
      rcases getElem?_push_eq_some hfn with hold | ⟨-, rfl⟩
      · exact ⟨found, hold, hid⟩
      · rw [hm] at hid
        exact absurd hid not_mem_nil
    · rintro ⟨found, hfn, hid⟩
      exact ⟨found, (Table.getElem?_push_of_lt (List.getElem?_eq_some_iff.mp hfn).1).trans hfn, hid⟩
  constructor
  case types_nodup => exact h.types_nodup
  case functions_fit => exact h.functions_fit
  case owned_lt => exact fun classId id hid => h.owned_lt classId id ((ho classId id).mp hid)
  case isMethod_iff =>
    intro id function hfc
    rw [h.isMethod_iff id function hfc]
    exact exists_congr fun classId => (ho classId id).symm
  case owner_unique =>
    exact fun id classId other hid hot => h.owner_unique id classId other ((ho _ _).mp hid) ((ho _ _).mp hot)
  case methods_nodup =>
    intro found hfn
    rcases mem_append.mp hfn with hold | hnew
    · exact h.methods_nodup found hold
    · rw [mem_singleton.mp hnew, hm]
      exact nodup_nil
  case receives =>
    intro classId found id function hfn hid hfc
    rcases getElem?_push_eq_some hfn with hold | ⟨-, rfl⟩
    · exact h.receives classId found id function hold hid hfc
    · rw [hm] at hid
      exact absurd hid not_mem_nil

/-- A function gets another body and further variables. -/
theorem revise (h : program.Consistent) {id : FunctionId} (hid : program.functions[id]? = some function)
    {params locals extra : List Variable} {body : Stmt} (hk : function.kind = .defined params locals body)
    (he : extra.map (·.id) = numbered (params.length + locals.length) extra.length) (replaced : Stmt) :
    Consistent { program with
      functions := program.functions.set id { function with kind := .defined params (locals ++ extra) replaced } } := by
  -- A function under an id is one of before, or the one that was replaced.
  have hset : ∀ {other : FunctionId} {found : Function},
      (program.functions.set id { function with kind := .defined params (locals ++ extra) replaced })[other]? = some found →
        program.functions[other]? = some found ∨
          other = id ∧ found = { function with kind := .defined params (locals ++ extra) replaced } := by
    intro other found hfn
    by_cases ho : id = other
    · subst ho
      rw [getElem?_set_self (List.getElem?_eq_some_iff.mp hid).1] at hfn
      exact .inr ⟨rfl, (Option.some.inj hfn).symm⟩
    · rw [getElem?_set_ne ho] at hfn
      exact .inl hfn
  constructor
  case types_nodup => exact h.types_nodup
  case functions_fit =>
    intro found hfn
    rcases mem_or_eq_of_mem_set hfn with hold | rfl
    · exact h.functions_fit found hold
    · exact (h.functions_fit function (mem_of_getElem? hid)).revise hk he replaced
  case owned_lt =>
    intro classId other ho
    rw [length_set]
    exact h.owned_lt classId other ho
  case isMethod_iff =>
    intro other found hfn
    rcases hset hfn with hold | ⟨rfl, rfl⟩
    · exact h.isMethod_iff other found hold
    · exact h.isMethod_iff other function hid
  case owner_unique => exact h.owner_unique
  case methods_nodup => exact h.methods_nodup
  case receives =>
    intro classId decl other found hd ho hfn
    rcases hset hfn with hold | ⟨rfl, rfl⟩
    · exact h.receives classId decl other found hd ho hold
    · obtain ⟨receiver, rest, locals', body', hr, hty⟩ := h.receives classId decl other function hd ho hid
      obtain ⟨rfl, -, -⟩ := FunctionKind.defined.inj (hk.symm.trans hr)
      exact ⟨receiver, rest, locals ++ extra, replaced, rfl, hty⟩

end Program.Consistent

/-- The class with one more method. -/
def ClassDecl.addMethod (id : FunctionId) (decl : ClassDecl) : ClassDecl := { decl with methods := decl.methods ++ [id] }

/-- The program with one more method of a class. -/
def Program.addMethod (prog : Program) (classId : ClassId) (function : Function) : Program :=
  { prog with
    functions := prog.functions.push function
    classes := prog.classes.modify classId (ClassDecl.addMethod prog.functions.nextId) }

/-- A class after a method was added is one of before, and the one that owns the method has it at its end. -/
theorem Program.getElem?_classes_addMethod (program : Program) (classId : ClassId) (function : Function) (other : ClassId) :
    (program.addMethod classId function).classes[other]? =
      (program.classes[other]?).map fun decl => if classId = other then decl.addMethod program.functions.length else decl := by
  unfold addMethod
  rw [getElem?_modify]
  by_cases ho : classId = other
  · rfl
  · rfl

variable {program : Program} {classId : ClassId} {decl : ClassDecl}

theorem Program.owns_addMethod (hd : program.classes[classId]? = some decl) (function : Function) (other : ClassId) (id : FunctionId) :
    (program.addMethod classId function).Owns other id ↔ program.Owns other id ∨ other = classId ∧ id = program.functions.length := by
  unfold Owns
  rw [getElem?_classes_addMethod]
  by_cases ho : classId = other
  · subst ho
    simp [hd, ClassDecl.addMethod]
  · simp [ho, Ne.symm ho]

/-- A method is added, with an instance of its class as the first parameter. -/
theorem Program.Consistent.addMethod (h : program.Consistent) (hd : program.classes[classId]? = some decl)
    (hf : function.Fits program.types) (hm : function.isMethod = true) (hrc : function.Receives decl.ty) :
    (program.addMethod classId function).Consistent := by
  have ho := owns_addMethod hd function
  constructor
  case types_nodup => exact h.types_nodup
  case functions_fit => exact h.fits_push hf
  case owned_lt =>
    intro other id hid
    unfold Program.addMethod
    rw [length_push]
    rcases (ho other id).mp hid with hold | ⟨-, rfl⟩
    · exact Nat.lt_succ_of_lt (h.owned_lt other id hold)
    · exact Nat.lt_succ_self _
  case isMethod_iff =>
    intro id found hfn
    rcases getElem?_push_eq_some hfn with hold | ⟨rfl, rfl⟩
    · have hid : id < program.functions.length := (List.getElem?_eq_some_iff.mp hold).1
      rw [h.isMethod_iff id found hold]
      refine exists_congr fun other => ?_
      rw [ho other id]
      exact ⟨.inl, fun hor => hor.resolve_right fun hnew => Nat.ne_of_lt hid hnew.2⟩
    · exact ⟨fun _ => ⟨classId, (ho classId _).mpr (.inr ⟨rfl, rfl⟩)⟩, fun _ => hm⟩
  case owner_unique =>
    intro id first second hfr hs
    rcases (ho first id).mp hfr with hfr | ⟨rfl, rfl⟩
    · rcases (ho second id).mp hs with hs | ⟨-, rfl⟩
      · exact h.owner_unique id first second hfr hs
      · exact absurd hfr (h.not_owns_length first)
    · rcases (ho second _).mp hs with hs | ⟨rfl, -⟩
      · exact absurd hs (h.not_owns_length second)
      · rfl
  case methods_nodup =>
    intro found hfn
    obtain ⟨other, hot⟩ := getElem?_of_mem hfn
    rw [getElem?_classes_addMethod] at hot
    obtain ⟨before, hb, rfl⟩ := Option.map_eq_some_iff.mp hot
    have hn := h.methods_nodup before (mem_of_getElem? hb)
    by_cases hc : classId = other
    · rw [if_pos hc]
      refine nodup_append.mpr ⟨hn, nodup_singleton _, fun id hid new hnew heq => ?_⟩
      rw [heq, mem_singleton.mp hnew] at hid
      exact h.not_owns_length other ⟨before, hb, hid⟩
    · rw [if_neg hc]
      exact hn
  case receives =>
    intro other found id receiver hfn hid hr
    have hold : ∃ before, program.classes[other]? = some before ∧ found.ty = before.ty := by
      rw [getElem?_classes_addMethod] at hfn
      obtain ⟨before, hb, rfl⟩ := Option.map_eq_some_iff.mp hfn
      refine ⟨before, hb, ?_⟩
      split <;> rfl
    obtain ⟨before, hb, hty⟩ := hold
    rw [hty]
    rcases (ho other id).mp ⟨found, hfn, hid⟩ with ⟨owner, how, hl⟩ | ⟨rfl, rfl⟩
    · cases hb.symm.trans how
      rcases getElem?_push_eq_some hr with hr | ⟨rfl, -⟩
      · exact h.receives other before id receiver hb hl hr
      · exact absurd ⟨before, hb, hl⟩ (h.not_owns_length other)
    · cases hb.symm.trans hd
      have hls : (program.functions.push function)[program.functions.nextId]? = some function := getElem?_push_nextId _ _
      cases hls.symm.trans hr
      exact hrc

/-! ## What is counted -/

/-- The variables of a function. -/
def FunctionKind.allVariables : FunctionKind → List Variable
  | .defined params locals _ => params ++ locals
  | .declared | .imported .. => []

/-- The variables of the function with this id. There are none where there is no function. -/
def variablesAt (functions : Table Function) (id : FunctionId) : List Variable :=
  (functions[id]?.map (·.kind.allVariables)).getD []

/-- What is counted for each function is how many variables it has. -/
def Builder.Counted (bld : Builder) : Prop :=
  ∀ id, bld.counter id = (variablesAt bld.program.functions id).length % UInt32.size

/-- Counters that are the builder's, but for one function, which has `count` variables. -/
def Builder.CountsTo (bld : Builder) (id : FunctionId) (count : Nat) (counters : List (FunctionId × VariableId)) : Prop :=
  ∀ other, (counters.lookup other).getD 0 = if other = id then count % UInt32.size else bld.counter other

section

variable {bld : Builder} {function : Function} {id : FunctionId}

/-- Where as much is counted already, the counters stay. -/
theorem Builder.countsTo_self {count : Nat} (h : bld.counter id = count % UInt32.size) : bld.CountsTo id count bld.nextVariable := by
  intro other
  split
  · rename_i ho
    rw [ho]
    exact h
  · rfl

namespace Builder.Counted

variable (h : bld.Counted)
include h

/-- Nothing is counted for a function that is not there yet. -/
theorem counter_length : bld.counter bld.program.functions.length = 0 := by
  rw [h]
  simp [variablesAt]

variable {counters : List (FunctionId × VariableId)}

theorem push (hc : bld.CountsTo bld.program.functions.length function.kind.allVariables.length counters) (other : FunctionId) :
    (counters.lookup other).getD 0 = (variablesAt (bld.program.functions.push function) other).length % UInt32.size := by
  rw [hc other]
  split
  · rename_i ho
    subst ho
    have hls : (bld.program.functions.push function)[bld.program.functions.length]? = some function := getElem?_push_nextId _ _
    rw [variablesAt, hls]
    rfl
  · rename_i ho
    rw [h other, variablesAt, variablesAt]
    have hls : (bld.program.functions.push function)[other]? = bld.program.functions[other]? := by
      rcases Nat.lt_or_gt_of_ne ho with hlt | hgt
      · exact Table.getElem?_push_of_lt hlt
      · rw [getElem?_eq_none (Nat.succ_le_of_lt hgt |>.trans' (length_push _ _).le), getElem?_eq_none (Nat.le_of_lt hgt)]
    rw [hls]

theorem set (hid : bld.program.functions[id]? = some function) {kind : FunctionKind}
    (hc : bld.CountsTo id kind.allVariables.length counters) (other : FunctionId) :
    (counters.lookup other).getD 0 = (variablesAt (bld.program.functions.set id { function with kind }) other).length % UInt32.size := by
  rw [hc other]
  split
  · rename_i ho
    subst ho
    rw [variablesAt, getElem?_set_self (List.getElem?_eq_some_iff.mp hid).1]
    rfl
  · rename_i ho
    rw [h other, variablesAt, variablesAt, getElem?_set_ne (Ne.symm ho)]

end Builder.Counted

end

/-! ## What operations do -/

/-- The builder after a type was interned. -/
def Builder.withType (bld : Builder) (kind : TypeKind) : Builder :=
  { bld with program.types := (bld.program.types.intern kind).2 }

/-- What an operation does to a builder at a time, with the numbers of the expressions that it makes. -/
inductive Change : Builder → List ExprId → Builder → Prop where
  | line (bld : Builder) (line : UInt32) : Change bld [] { bld with line }
  | number (bld : Builder) : Change bld [bld.nextExpr] { bld with nextExpr := advanceId bld.nextExpr 1 }
  | entry (bld : Builder) (id : FunctionId) : Change bld [] { bld with program.entry := some id }
  | type (bld : Builder) (kind : TypeKind) : Change bld [] (bld.withType kind)
  | function {bld : Builder} {function : Function} (hbuilt : function.IsBuilt) (hfits : function.Fits bld.program.types)
      (hplain : function.isMethod = false) {counters : List (FunctionId × VariableId)}
      (hcounters : bld.CountsTo bld.program.functions.length function.kind.allVariables.length counters) :
    Change bld [] { bld with program.functions := bld.program.functions.push function, nextVariable := counters }
  | method {bld : Builder} {classId : ClassId} {decl : ClassDecl} (hdecl : bld.program.classes[classId]? = some decl)
      {function : Function} (hbuilt : function.IsBuilt) (hfits : function.Fits bld.program.types)
      (hmethod : function.isMethod = true) (hreceives : function.Receives decl.ty) {counters : List (FunctionId × VariableId)}
      (hcounters : bld.CountsTo bld.program.functions.length function.kind.allVariables.length counters) :
    Change bld [] { bld with program := bld.program.addMethod classId function, nextVariable := counters }
  | revise {bld : Builder} {id : FunctionId} {function : Function} (hid : bld.program.functions[id]? = some function)
      {params locals extra : List Variable} {body : Stmt} (hkind : function.kind = .defined params locals body)
      (hextra : extra.map (·.id) = numbered (params.length + locals.length) extra.length) (replaced : Stmt)
      {counters : List (FunctionId × VariableId)}
      (hcounters : bld.CountsTo id (params ++ (locals ++ extra)).length counters) :
    Change bld [] { bld with
      program.functions := bld.program.functions.set id
        { function with kind := .defined params (locals ++ extra) replaced }
      nextVariable := counters }
  | classDecl (bld : Builder) {decl : ClassDecl} (hmethods : decl.methods = []) :
    Change bld [] { bld with program.classes := bld.program.classes.push decl }

/-- Changes one after the other, with the numbers of all expressions that they make. -/
inductive Changes : Builder → List ExprId → Builder → Prop where
  | none (bld : Builder) : Changes bld [] bld
  | cons {bld mid after : Builder} {first rest : List ExprId} (hfirst : Change bld first mid)
      (hrest : Changes mid rest after) : Changes bld (first ++ rest) after

variable {bld : Builder} {made : List ExprId}

theorem Change.consistent {after : Builder} (h : Change bld made after) (hc : bld.program.Consistent) : after.program.Consistent := by
  cases h with
  | line | number => exact hc
  | entry id => exact hc.setEntry _
  | type kind => exact hc.intern kind
  | function _ hf hp => exact hc.addFunction hf hp
  | method hd _ hf hm hr => exact hc.addMethod hd hf hm hr
  | revise hid hk he replaced => exact hc.revise hid hk he replaced
  | classDecl hms => exact hc.addClass hms

/-- A change adds no function that cannot be built, and lets none become one. -/
theorem Change.sorted {after : Builder} (h : Change bld made after) (hs : bld.Sorted) : after.Sorted := by
  cases h with
  | line | number | entry | type | classDecl => exact hs
  | function hb | method _ hb => exact forall_mem_append.mpr ⟨hs, forall_mem_singleton.mpr hb⟩
  | @revise id function hid params locals extra body hk he replaced =>
    intro listed hl
    rcases mem_or_eq_of_mem_set hl with hold | rfl
    · exact hs listed hold
    · have hb := hs function (mem_of_getElem? hid)
      unfold Function.IsBuilt at hb
      rw [hk] at hb
      exact hb

/-- A change keeps count of variables. -/
theorem Change.counted {after : Builder} (h : Change bld made after) (hc : bld.Counted) : after.Counted := by
  cases h with
  | line | number | entry | type | classDecl => exact hc
  | function _ _ _ hcs => exact hc.push hcs
  | method _ _ _ _ _ hcs => exact hc.push hcs
  | revise hid _ _ replaced hcs => exact hc.set hid hcs

/-- A change numbers what it makes from the next number on. -/
theorem Change.numbers {after : Builder} {count : Nat} (h : Change bld made after) (hn : bld.nextExpr = count % UInt32.size) :
    made = numbered count made.length ∧ after.nextExpr = (count + made.length) % UInt32.size := by
  cases h with
  | number => exact ⟨congrArg (fun num => [num]) hn, by rw [hn]; exact advanceId_mod count⟩
  | _ => exact ⟨rfl, hn⟩

namespace Changes

variable {bld mid after : Builder} {made rest : List ExprId}

theorem single (h : Change bld made after) : Changes bld made after := by
  rw [← append_nil made]
  exact .cons h (.none after)

theorem append (h : Changes bld made mid) (hr : Changes mid rest after) : Changes bld (made ++ rest) after := by
  induction h with
  | none => exact hr
  | cons hfr _ ih =>
    rw [append_assoc]
    exact .cons hfr (ih hr)

/-- What every change keeps, changes one after the other keep. -/
theorem keeps {P : Builder → Prop} (hc : ∀ {bld made after}, Change bld made after → P bld → P after)
    (h : Changes bld made after) (hb : P bld) : P after := by
  induction h with
  | none => exact hb
  | cons hfr _ ih => exact ih (hc hfr hb)

theorem numbers {count : Nat} (h : Changes bld made after) (hn : bld.nextExpr = count % UInt32.size) :
    made = numbered count made.length ∧ after.nextExpr = (count + made.length) % UInt32.size := by
  induction h generalizing count with
  | none => exact ⟨rfl, hn⟩
  | @cons bld mid after first rest hfr _ ih =>
    obtain ⟨hm, hn⟩ := hfr.numbers hn
    obtain ⟨hr, ha⟩ := ih hn
    constructor
    · rw [length_append, ← numbered_append, ← hm, ← hr]
    · rw [ha, length_append, Nat.add_assoc]

end Changes

namespace Build

variable {α β : Type}

/-- Whatever the step does, it consists of changes, and they make the expressions that its result speaks of. -/
def Does (step : Build α) (post : α → List ExprId → Prop) : Prop :=
  ∀ bld result after, bld.Counted → step.run bld = .ok (result, after) → ∃ made, Changes bld made after ∧ post result made

/-- The step makes no expressions. -/
def Quiet (step : Build α) : Prop := Does step fun _ made => made = []

namespace Does

variable {first : Build α} {next : α → Build β} {post : β → List ExprId → Prop}

theorem bind {mid : α → List ExprId → Prop} (hfr : Does first mid)
    (hn : ∀ res made, mid res made → Does (next res) fun last rest => post last (made ++ rest)) :
    Does (first >>= next) post := by
  intro bld res after hc hrun
  obtain ⟨⟨found, later⟩, hfn, hr⟩ := of_bind_eq_ok hrun
  obtain ⟨made, hm, hmd⟩ := hfr bld found later hc hfn
  obtain ⟨rest, hr, hp⟩ := hn found made hmd later res after (hm.keeps Change.counted hc) hr
  exact ⟨made ++ rest, hm.append hr, hp⟩

theorem pure {res : α} {post : α → List ExprId → Prop} (h : post res []) : Does (pure res : Build α) post := by
  intro bld found after _ hrun
  cases hrun
  exact ⟨[], .none bld, h⟩

theorem weaken {step : Build α} {post post' : α → List ExprId → Prop} (h : Does step post)
    (hp : ∀ res made, post res made → post' res made) : Does step post' := by
  intro bld res after hc hrun
  obtain ⟨made, hm, hr⟩ := h bld res after hc hrun
  exact ⟨made, hm, hp res made hr⟩

/-- A step that makes no expressions, and then another. -/
theorem after (hfr : Quiet first) (hn : ∀ res, Does (next res) post) : Does (first >>= next) post := hfr.bind fun res made hm => by
    rw [hm]
    exact hn res

end Does

namespace Quiet

/-- A step that leaves the builder as it is. -/
theorem of_same {step : Build α} (h : ∀ bld res after, step.run bld = .ok (res, after) → after = bld) : Quiet step := by
  intro bld res after _ hrun
  rw [h bld res after hrun]
  exact ⟨[], .none bld, rfl⟩

theorem read : Quiet (get : Build Builder) := .of_same fun _ _ _ hrun => ((ok_pair_inj hrun).2).symm

theorem fault (reason : Fault) : Quiet (throw reason : Build α) := .of_same fun _ _ _ hrun => by cases hrun

theorem lift (found : Except Fault α) : Quiet (liftM found : Build α) := by
  refine .of_same fun bld res after hrun => ?_
  cases found with
  | error fault => cases hrun
  | ok val => exact ((ok_pair_inj hrun).2).symm

theorem change {step : Builder → α × Builder} (h : ∀ bld, Change bld [] (step bld).2) : Quiet (modifyGet step : Build α) := by
  intro bld res after _ hrun
  obtain rfl := (ok_pair_inj hrun).2
  exact ⟨[], .single (h bld), rfl⟩

theorem type (kind : TypeKind) : Quiet (type kind) :=
  @change TypeId (fun bld => ((bld.program.types.intern kind).1, bld.withType kind)) fun bld => .type bld kind

theorem getFunction (id : FunctionId) : Quiet (getFunction id) := .after .read fun _ => lift _

theorem getClass (id : ClassId) : Quiet (getClass id) := .after .read fun _ => lift _

/-- A statement takes the current position only. -/
theorem stmt (make : Location → Stmt) : Quiet (do return make (← here)) := .after (.after .read fun _ => .pure rfl) fun _ => .pure rfl

end Quiet

/-! ### Functions and classes -/

/-- A new variable gets the number that is counted for the function, which is counted up. -/
theorem countsTo_newVariable {bld : Builder} {id : FunctionId} {count : Nat} (h : bld.counter id = count % UInt32.size) :
    bld.CountsTo id (count + 1) ((id, advanceId (bld.counter id) 1) :: bld.nextVariable) := by
  intro other
  rw [h, advanceId_mod, lookup_cons]
  by_cases ho : other = id
  · simp [ho]
  · rw [beq_false_of_ne ho, if_neg ho]
    rfl

/-- New variables are numbered in order, and have the types that they are declared with. -/
theorem mapM_newVariable (id : FunctionId) (declared : List (String × TypeId)) {bld : Builder} {count : Nat}
    (h : bld.counter id = count % UInt32.size) :
    ∃ fresh counters, (declared.mapM (newVariable id)).run bld = .ok (fresh, { bld with nextVariable := counters }) ∧
      fresh.map (·.ty) = declared.map (·.2) ∧ fresh.map (·.id) = numbered count declared.length ∧
      bld.CountsTo id (count + declared.length) counters := by
  induction declared generalizing bld count with
  | nil => exact ⟨[], bld.nextVariable, rfl, rfl, rfl, Builder.countsTo_self h⟩
  | cons first rest ih =>
    have hfirst := countsTo_newVariable h
    have hnext := hfirst id
    rw [if_pos rfl] at hnext
    obtain ⟨fresh, counters, hrun, htypes, hids, hcounts⟩ :=
      @ih { bld with nextVariable := (id, advanceId (bld.counter id) 1) :: bld.nextVariable } (count + 1) hnext
    refine ⟨⟨bld.counter id, bld.symbol first.1, first.2⟩ :: fresh, counters, ?_, ?_, ?_, fun other => ?_⟩
    · rw [mapM_cons]
      exact congrArg (fun run : Except Fault (List Variable × Builder) => run >>= fun res => .ok (_ :: res.1, res.2)) hrun
    · rw [map_cons, map_cons, htypes]
    · rw [map_cons, hids, h]
      rfl
    · rw [hcounts other, length_cons, Nat.add_assoc, Nat.add_comm 1]
      split
      · rfl
      · rename_i ho
        exact (hfirst other).trans (if_neg ho)

variable {kind : FunctionKind} {params : List TypeId}

/-- A function fits the types after its own was interned. -/
theorem fits_intern_function (types : TypeTable) (h : kind.Fits params) (ret : TypeId) (sym : Symbol)
    (linkage : Linkage) (isMethod : Bool) :
    Function.Fits (types.intern (.function params ret)).2 ⟨sym, (types.intern (.function params ret)).1, linkage, isMethod, kind⟩ :=
  ⟨params, ret, (types.firstAt_intern _).1, h⟩

/-- Adding a function interns its type first. -/
theorem Quiet.addFunction (name : String) (ret : TypeId) {linkage : Linkage} (h : kind.Fits params)
    (hb : ∀ symbol ty, (Function.mk symbol ty linkage false kind).IsBuilt)
    (hbare : kind.allVariables = []) : Quiet (addFunction name params ret linkage false kind) := by
  intro bld result after hc hrun
  cases hrun
  have hf := fits_intern_function bld.program.types h ret (bld.symbol name) linkage false
  have hcs : (bld.withType (.function params ret)).CountsTo bld.program.functions.length kind.allVariables.length
      bld.nextVariable := Builder.countsTo_self (by rw [hbare]; exact hc.counter_length)
  exact ⟨[], .cons (.type bld _) (.single (.function (hb _ _) hf rfl hcs)), rfl⟩

/-- A function with a body is declared, its parameters are numbered, and it gets an empty body. -/
theorem addDefined_eq_ok {bld after : Builder} {name : String} {declared : List (String × TypeId)} {ret : TypeId}
    {isMethod : Bool} {id : FunctionId} (hc : bld.Counted)
    (h : (addDefined name declared ret isMethod).run bld = .ok (id, after)) :
    ∃ (function : Function) (formals : List Variable) (counters : List (FunctionId × VariableId)), id = bld.program.functions.length ∧
      function.kind = .defined formals [] (.block bld.location []) ∧ function.isMethod = isMethod ∧ function.IsBuilt ∧
      function.Fits (bld.withType (.function (declared.map (·.2)) ret)).program.types ∧
      formals.map (·.ty) = declared.map (·.2) ∧
      bld.CountsTo bld.program.functions.length function.kind.allVariables.length counters ∧
      after = { bld.withType (.function (declared.map (·.2)) ret) with
        program.functions := bld.program.functions.push function, nextVariable := counters } := by
  obtain ⟨⟨formals, mid⟩, hnew, hr⟩ := of_bind_eq_ok h
  obtain ⟨_, counters, hrun, htypes, hids, hcounts⟩ := @mapM_newVariable bld.program.functions.length declared
    { bld.withType (.function (declared.map (·.2)) ret) with
      program.functions := bld.program.functions.push ⟨bld.symbol name,
        (bld.program.types.intern (.function (declared.map (·.2)) ret)).1, .internal, isMethod, .declared⟩ }
    0 hc.counter_length
  cases hrun.symm.trans hnew
  obtain ⟨⟨nothing, later⟩, hset, hl⟩ := of_bind_eq_ok hr
  cases hl
  obtain ⟨found, hfn, rfl⟩ := setKind_eq_ok hset
  cases (getElem?_push_nextId bld.program.functions _).symm.trans hfn
  have hlength : formals.length = declared.length := by simpa using congrArg length htypes
  have hfits : (FunctionKind.defined formals [] (.block bld.location [])).Fits (declared.map (·.2)) :=
    ⟨htypes, by rw [append_nil, hids, ← hlength]; rfl⟩
  refine ⟨⟨bld.symbol name, (bld.program.types.intern (.function (declared.map Prod.snd) ret)).1, .internal, isMethod,
    .defined formals [] (.block bld.location [])⟩, formals, counters, rfl, rfl, rfl, rfl,
    fits_intern_function _ hfits ret _ .internal isMethod, htypes, ?_, ?_⟩
  · rw [FunctionKind.allVariables, append_nil, hlength, ← Nat.zero_add declared.length]
    exact hcounts
  · exact congrArg (fun functions : Table Function => { bld.withType (.function (declared.map (·.2)) ret) with
      program.functions := functions, nextVariable := counters }) (Table.set_push _ _ _)

theorem Quiet.newFunction (name : String) (params : List (String × TypeId)) (ret : TypeId) : Quiet (Build.function name params ret) := by
  intro bld result after hc hrun
  obtain ⟨function, formals, counters, rfl, hk, hm, hb, hf, -, hcs, rfl⟩ := addDefined_eq_ok hc hrun
  exact ⟨[], .cons (.type bld _) (.single (.function hb hf hm hcs)), rfl⟩

theorem Quiet.method (classId : ClassId) (name : String) (params : List (String × TypeId)) (ret : TypeId) :
    Quiet (method classId name params ret) := by
  intro bld result after hc hrun
  obtain ⟨⟨decl, later⟩, hget, hr⟩ := of_bind_eq_ok hrun
  obtain ⟨rfl, hd⟩ := getClass_eq_ok hget
  obtain ⟨⟨id, added⟩, hadd, hr⟩ := of_bind_eq_ok hr
  cases hr
  obtain ⟨function, formals, counters, rfl, hk, hm, hb, hf, hty, hcs, rfl⟩ := addDefined_eq_ok hc hadd
  have hrc : function.Receives decl.ty := by
    obtain ⟨receiver, rest, rfl, hrt, -⟩ := map_eq_cons_iff.mp hty
    exact ⟨receiver, rest, [], _, hk, hrt⟩
  have hd' : (later.withType (.function (("self", decl.ty) :: params |>.map (·.2)) ret)).program.classes[classId]? = some decl := hd
  exact ⟨[], .cons (.type later _) (.single (.method hd' hb hf hm hrc hcs)), rfl⟩

variable (id : FunctionId)

theorem Quiet.parameter (position : Nat) : Quiet (parameter id position) := by
  refine .after (.getFunction id) fun function => ?_
  split
  · split
    · exact .pure rfl
    · exact Quiet.fault _
  · exact Quiet.fault _

theorem Quiet.addLocal (name : String) (ty : TypeId) : Quiet (addLocal id name ty) := by
  intro bld res after hc hrun
  obtain ⟨⟨nothing, updated⟩, hu, hl⟩ := of_bind_eq_ok hrun
  cases hl
  obtain ⟨function, params, locals, body, hfn, hk, rfl⟩ := update_eq_ok hu
  have hct : bld.counter id = (params.length + locals.length) % UInt32.size := by
    have hct := hc id
    rw [variablesAt, hfn] at hct
    simpa [hk, FunctionKind.allVariables] using hct
  have hcs := countsTo_newVariable hct
  exact ⟨[], .single (@Change.revise bld id function hfn params locals [⟨bld.counter id, bld.symbol name, ty⟩] body hk
    (congrArg (fun num => [num]) hct) body _ (by simpa [Nat.add_assoc] using hcs)), rfl⟩

theorem Quiet.define (body : Stmt) : Quiet (define id body) := by
  intro bld res after hc hrun
  obtain ⟨function, params, locals, old, hfn, hk, rfl⟩ := update_eq_ok hrun
  have hcs : bld.CountsTo id (params ++ (locals ++ [])).length bld.nextVariable := by
    refine Builder.countsTo_self ?_
    rw [hc id, variablesAt, hfn, append_nil]
    simp [hk, FunctionKind.allVariables]
  have hch := @Change.revise bld id function hfn params locals [] old hk rfl body _ hcs
  rw [append_nil] at hch
  exact ⟨[], .single hch, rfl⟩

theorem Quiet.addClass (name : String) (parent : Option ClassId) (fields : List (String × TypeId)) :
    Quiet (addClass name parent fields) := by
  intro bld result after _ hrun
  cases hrun
  exact ⟨[], .cons (.type bld _) (.single (.classDecl _ rfl)), rfl⟩

/-! ### Expressions -/

/-- The step makes the expression that it results in, and no other. -/
def Makes (step : Build Expr) : Prop := Does step fun expr made => made = [expr.info.id]

theorem does_info (ty : TypeId) : Does (info ty) fun info made => made = [info.id] := by
  intro bld res after _ hrun
  cases hrun
  exact ⟨[bld.nextExpr], .single (.number bld), rfl⟩

variable {make : ExprInfo → Expr} {post : Expr → List ExprId → Prop}

/-- An expression of a known type gets its number. -/
theorem Does.number (h : ∀ info, post (make info) [info.id]) (ty : TypeId) : Does (do return make (← info ty)) post :=
  (does_info ty).bind fun info made hm => .pure (by
    rw [hm]
    exact h info)

/-- An expression gets a type, and then its number. -/
theorem Does.expr (h : ∀ info, post (make info) [info.id]) {ty : Build TypeId} (hty : Quiet ty) :
    Does (do return make (← info (← ty))) post :=
  .after hty fun ty => .number h ty

theorem makes_literal (val : LiteralValue) : Makes (literal val) := .expr (fun _ => rfl) (.type _)

theorem makes_variableRef (num : VariableId) : Makes (variableRef id num) := by
  refine .after (.getFunction id) fun function => ?_
  dsimp only
  split
  · exact .expr (fun _ => rfl) (.pure rfl)
  · exact .expr (fun _ => rfl) (.type _)

theorem makes_functionRef : Makes (functionRef id) := .after (.getFunction id) fun function => .number (fun _ => rfl) function.ty

theorem makes_unary (op : UnaryOperator) (opd : Expr) : Makes (unary op opd) := by
  cases op with
  | not => exact .expr (fun _ => rfl) (.type _)
  | plus | negate | bitNot => exact .expr (fun _ => rfl) (.pure rfl)

theorem makes_binary (op : BinaryOperator) (lhs rhs : Expr) : Makes (binary op lhs rhs) := by
  cases op with
  | logicalOr | logicalAnd | equal | notEqual | less | lessEqual | greater | greaterEqual =>
    exact .expr (fun _ => rfl) (.type _)
  | bitOr | bitXor | bitAnd | shiftLeft | shiftRight | add | subtract | multiply | divide | remainder =>
    exact .expr (fun _ => rfl) (.pure rfl)

theorem does_call (callee : Expr) (args : List Expr) :
    Does (call callee args) fun expr made => ∃ info, expr = .call info callee args ∧ made = [info.id] := by
  refine .after .read fun bld => .after (.lift _) fun sig => ?_
  split
  · exact .expr (fun info => ⟨info, rfl, rfl⟩) (.pure rfl)
  · exact .expr (fun info => ⟨info, rfl, rfl⟩) (.type _)

theorem does_memberAt (obj key : Expr) :
    Does (memberAt obj key) fun expr made => ∃ info, expr = .member info obj key ∧ made = [info.id] :=
  .expr (fun info => ⟨info, rfl, rfl⟩) (.type _)

theorem makes_index (obj position : Expr) : Makes (index obj position) := by
  refine .after .read fun bld => .after (.lift _) fun kind => ?_
  split
  · exact .expr (fun _ => rfl) (.pure rfl)
  · exact .expr (fun _ => rfl) (.type _)

end Build

/-! ## Calls -/

namespace Build

variable {α : Type}

/-- The step results in all expressions that it makes. -/
def Tells (step : Build α) (made : α → List Expr) : Prop := Does step fun res ids => (made res).map (·.info.id) = ids

theorem Quiet.tells {step : Build α} {made : α → List Expr} (h : Quiet step) (hm : ∀ res, made res = []) : Tells step made :=
  h.weaken fun res _ hn => by rw [hm, hn]; rfl

theorem Makes.tells {step : Build Expr} {made : Expr → List Expr} (h : Makes step) (hm : ∀ expr, made expr = [expr]) : Tells step made :=
  h.weaken fun expr _ hn => by rw [hm, hn]; rfl

theorem tells_callFunction (id : FunctionId) (args : List Expr) : Tells (callFunction id args) (Call.callFunction id args).made :=
  (makes_functionRef id).bind fun callee first hfr => (does_call callee args).weaken fun expr made he => by
    obtain ⟨info, rfl, rfl⟩ := he
    rw [hfr]
    rfl

theorem tells_member (obj : Expr) (name : String) : Tells (member obj name) (Call.member obj name).made :=
  (makes_literal (.string name)).bind fun key first hfr => (does_memberAt obj key).weaken fun expr made he => by
    obtain ⟨info, rfl, rfl⟩ := he
    rw [hfr]
    rfl

end Build

open Build in
/-- A call consists of changes, and tells which expressions it made. -/
theorem Call.tells {α : Type} (call : Call α) : Tells call.run call.made := by
  cases call with
  | setLine line => exact (Quiet.change fun bld => .line bld line).tells fun _ => rfl
  | voidType | dynamicType | primitiveType | arrayType | functionType => exact (Quiet.type _).tells fun _ => rfl
  | function name params ret => exact (Quiet.newFunction name params ret).tells fun _ => rfl
  | method classId name params ret => exact (Quiet.method classId name params ret).tells fun _ => rfl
  | declare name params ret => exact Quiet.tells (.addFunction name ret trivial (fun _ _ => rfl) rfl) fun _ => rfl
  | importFrom library name params ret =>
    exact Quiet.tells (.addFunction name ret trivial (fun _ _ => ⟨rfl, rfl⟩) rfl) fun _ => rfl
  | parameter id position => exact (Quiet.parameter id position).tells fun _ => rfl
  | addLocal id name ty => exact (Quiet.addLocal id name ty).tells fun _ => rfl
  | define id body => exact (Quiet.define id body).tells fun _ => rfl
  | setEntry id => exact (Quiet.change fun bld => .entry bld id).tells fun _ => rfl
  | addClass name parent fields => exact (Quiet.addClass name parent fields).tells fun _ => rfl
  | classType id => exact Quiet.tells (.after (.getClass id) fun _ => .pure rfl) fun _ => rfl
  | literal val => exact (makes_literal val).tells fun _ => rfl
  | variableRef id number => exact (makes_variableRef id number).tells fun _ => rfl
  | functionRef id => exact (makes_functionRef id).tells fun _ => rfl
  | unary op opd => exact (makes_unary op opd).tells fun _ => rfl
  | binary op lhs rhs => exact (makes_binary op lhs rhs).tells fun _ => rfl
  | count | assign | cast | make => exact Makes.tells (.number (fun _ => rfl) _) fun _ => rfl
  | call callee args =>
    refine Makes.tells ((does_call callee args).weaken fun expr made he => ?_) fun _ => rfl
    obtain ⟨info, rfl, hm⟩ := he
    exact hm
  | callFunction id args => exact tells_callFunction id args
  | index obj position => exact (makes_index obj position).tells fun _ => rfl
  | memberAt | print | typeOf => exact Makes.tells (.expr (fun _ => rfl) (.type _)) fun _ => rfl
  | member obj name => exact tells_member obj name
  | block | branch | whileLoop | doLoop | breakLoop | returnValue | expression => exact (Quiet.stmt _).tells fun _ => rfl

/-! ## Whatever is built -/

/-- At first nothing is counted. -/
theorem Builder.counted_empty : empty.Counted := fun _ => rfl

namespace Build

/-- Whatever is built consists of changes. -/
theorem Builds.acts {α : Type} {step : Build α} (h : Builds step) : Does step fun _ _ => True := by
  induction h with
  | pure res => exact .pure trivial
  | bind _ _ hfr hn => exact hfr.bind fun res _ _ => hn res
  | call call => exact call.tells.weaken fun _ _ _ => trivial

/-- Whatever is built, its functions are as they can be built. -/
theorem Builds.sorted {α : Type} {step : Build α} (h : Builds step) {res : α} {after : Builder}
    (hrun : step.run .empty = .ok (res, after)) : after.Sorted := by
  obtain ⟨made, hc, -⟩ := h.acts .empty res after Builder.counted_empty hrun
  exact hc.keeps Change.sorted (forall_mem_nil _)

end Build

/-! ## Sequences of calls -/

/-- Makes calls one after the other, and results in the expressions that each of them made. -/
def performAll (calls : List (Σ α, Call α)) : Build (List (List Expr)) := calls.mapM fun call => return call.2.made (← call.2.run)

/-- Calls one after the other tell which expressions they made. -/
theorem does_performAll (calls : List (Σ α, Call α)) :
    Build.Does (performAll calls) fun made numbers => made.flatten.map (·.info.id) = numbers := by
  unfold performAll
  induction calls with
  | nil =>
    exact .pure rfl
  | cons call calls ih =>
    rw [mapM_cons]
    have hone : Build.Does (do return call.2.made (← call.2.run)) fun exprs made => exprs.map (·.info.id) = made :=
      call.2.tells.bind fun res first hfr => .pure (by rw [hfr, append_nil])
    refine hone.bind fun exprs first hfr => ih.bind fun made rest hr => .pure ?_
    rw [flatten_cons, map_append, hfr, hr, append_nil]

theorem Builder.not_owns_empty (classId : ClassId) (id : FunctionId) : ¬ empty.program.Owns classId id := by
  rintro ⟨decl, hd, -⟩
  cases hd

/-- At first there is nothing that could disagree. -/
theorem Builder.consistent_empty : empty.program.Consistent where
  types_nodup := nodup_nil
  functions_fit _ hfn := absurd hfn not_mem_nil
  owned_lt classId id ho := absurd ho (not_owns_empty classId id)
  isMethod_iff _ _ hfn := absurd hfn (by simp [empty])
  owner_unique id classId _ ho := absurd ho (not_owns_empty classId id)
  methods_nodup _ hd := absurd hd not_mem_nil
  receives classId decl id _ hd hid := absurd ⟨decl, hd, hid⟩ (not_owns_empty classId id)

/-- However a program is built, its parts agree with each other. The expressions that were made on the way are numbered in order,
so that no two of them have one number as long as there are at most as many as numbers of 32 bits; and the same goes for the variables
of each function, which are counted. -/
theorem perform_consistent (calls : List (Σ α, Call α)) (made : List (List Expr)) (builder : Builder)
    (h : (performAll calls).run Builder.empty = .ok (made, builder)) :
    made.flatten.map (·.info.id) = (List.range made.flatten.length).map (· % UInt32.size) ∧
      (made.flatten.length ≤ UInt32.size → (made.flatten.map (·.info.id)).Nodup) ∧ builder.program.Consistent ∧ builder.Counted ∧
      ∀ function ∈ builder.program.functions, ∀ parameters locals body, function.kind = .defined parameters locals body →
        (parameters ++ locals).length ≤ UInt32.size → (parameters ++ locals).map (·.id) = List.range (parameters ++ locals).length := by
  obtain ⟨numbers, hchanges, hmade⟩ := does_performAll calls Builder.empty made builder Builder.counted_empty h
  have hnumbered : made.flatten.map (·.info.id) = numbered 0 made.flatten.length := by
    rw [← length_map (·.info.id), hmade]
    exact (hchanges.numbers rfl).1
  have hconsistent := hchanges.keeps Change.consistent Builder.consistent_empty
  refine ⟨by rw [hnumbered, numbered, range_eq_range'], fun hfew => ?_, hconsistent,
    hchanges.keeps Change.counted Builder.counted_empty, fun function hfunction parameters locals body hkind hfew => ?_⟩
  · rw [hnumbered, numbered_eq_range hfew]
    exact nodup_range
  · obtain ⟨types, returnType, -, hfits⟩ := hconsistent.functions_fit function hfunction
    rw [hkind] at hfits
    rw [hfits.2, length_append, numbered_eq_range (by rwa [length_append] at hfew)]

/-- A class with a method that has a parameter and a local, a call of a function that is declared only, and a body for the method. -/
def pointCalls : List (Σ α, Call α) :=
  [⟨_, .primitiveType .int⟩, ⟨_, .addClass "Point" none [("x", 0)]⟩, ⟨_, .method 0 "scale" [("factor", 0)] 0⟩,
    ⟨_, .addLocal 0 "scaled" 0⟩, ⟨_, .declare "clock" [] 0⟩, ⟨_, .setLine 2⟩, ⟨_, .callFunction 1 []⟩, ⟨_, .literal (.int 2)⟩,
    ⟨_, .member (.variableRef ⟨0, 1, ⟨some 0, 2, 1⟩⟩ 0) "x"⟩, ⟨_, .define 0 (.block ⟨some 0, 2, 1⟩ [])⟩]

/-- The builder makes all of these calls. The callee and the name of the member are expressions as well. -/
theorem perform_consistent_point : ∃ made bld, (performAll pointCalls).run Builder.empty = .ok (made, bld) ∧
      made.flatten.map (·.info.id) = [0, 1, 2, 3, 4] ∧ bld.program.classes.map (·.methods) = [[0]] ∧ bld.counter 0 = 3 ∧
      (made.flatten.map (·.info.id)).Nodup ∧ bld.program.Consistent ∧ bld.Counted := by
  have hrun : ((performAll pointCalls).run Builder.empty).map
      (fun result => (result.1.flatten.map (·.info.id), result.2.program.classes.map (·.methods), result.2.counter 0)) =
        .ok ([0, 1, 2, 3, 4], [[0]], 3) := by
    decide +kernel
  obtain ⟨⟨made, bld⟩, hmade, hseen⟩ := exists_of_map_eq_ok hrun
  obtain ⟨hnumbers, hseen⟩ := Prod.mk.inj hseen
  obtain ⟨hmethods, hcounter⟩ := Prod.mk.inj hseen
  obtain ⟨-, hdistinct, hconsistent, hcounted, -⟩ := perform_consistent pointCalls made bld hmade
  have hfew : made.flatten.length ≤ UInt32.size := by
    rw [← length_map (·.info.id), hnumbers]
    decide
  exact ⟨made, bld, hmade, hnumbers, hmethods, hcounter, hdistinct hfew, hconsistent, hcounted⟩

/-- A literal can be made whatever was built before, and as often as wanted. -/
theorem exists_performAll_literal (val : LiteralValue) (count : Nat) (bld : Builder) :
    ∃ made after, (performAll (replicate count ⟨_, .literal val⟩)).run bld = .ok (made, after) ∧ made.flatten.length = count := by
  induction count generalizing bld with
  | zero => exact ⟨[], bld, rfl, rfl⟩
  | succ count ih =>
    obtain ⟨⟨first, mid⟩, hfirst⟩ : ∃ result, (Call.literal val).run.run bld = .ok result := ⟨_, rfl⟩
    obtain ⟨made, after, hrun, hlength⟩ := ih mid
    refine ⟨[first] :: made, after, ?_, by rw [flatten_cons, length_append, hlength, Nat.add_comm]; rfl⟩
    rw [replicate_succ, performAll, mapM_cons, StateT.run_bind, StateT.run_bind]
    dsimp only
    rw [hfirst]
    exact congrArg (fun run : Except Fault (List (List Expr) × Builder) => run >>= fun res => .ok ([first] :: res.1, res.2)) hrun

/-- With one literal more than there are numbers of 32 bits, a number is given twice. -/
theorem literals_repeat_number :
    ∃ made bld, (performAll (replicate (UInt32.size + 1) ⟨_, .literal (.int 0)⟩)).run Builder.empty = .ok (made, bld) ∧
      ¬ (made.flatten.map (·.info.id)).Nodup := by
  obtain ⟨made, bld, hrun, hlength⟩ := exists_performAll_literal (.int 0) (UInt32.size + 1) Builder.empty
  obtain ⟨numbers, hchanges, hmade⟩ := does_performAll _ Builder.empty made bld Builder.counted_empty hrun
  refine ⟨made, bld, hrun, ?_⟩
  have hcount : numbers.length = UInt32.size + 1 := by rw [← hmade, length_map, hlength]
  have hnumbered : numbers = numbered 0 numbers.length := (hchanges.numbers rfl).1
  rw [hmade, hnumbered, hcount]
  exact not_nodup_numbered (Nat.lt_succ_self _)

end Source

end TagAsm
