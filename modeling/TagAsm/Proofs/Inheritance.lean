import TagAsm.Proofs.WellFormed

/-!
# Inheritance

What a class has, said without a table of classes merged so far: its lineage, from the class itself up to a class without a parent;
the members that a lineage adds up to; and the members on the way whose names are taken. In a clean lineage a method is that of the
nearest class, and no two members share a name.
-/

namespace TagAsm.Lower

open TagAsm.Flow List
open Source (ClassDecl Variable FunctionId)

/-! ## One class -/

/-- The fields that a class declares. -/
def ownFields (decl : ClassDecl) : List Field := decl.fields.map fun field => ⟨field.symbol.name, field.ty⟩

/-- The functions that a class declares as methods, with their symbols. -/
def methodSymbols (prog : Source.Program) (decl : ClassDecl) : List (Symbol × FunctionId) :=
  decl.methods.filterMap fun id => prog.functions[id]?.map fun fn => (fn.symbol, id)

/-- The methods that a class declares. -/
def ownMethods (prog : Source.Program) (decl : ClassDecl) : List Method :=
  (methodSymbols prog decl).map fun method => ⟨method.1.name, method.2⟩

/-- What is inherited, and then the class's own: a method takes the place of the inherited one of its name, all else is added at
the end. -/
def Members.extend (inherited : Members) (fields : List Field) (methods : List Method) : Members where
  fields := inherited.fields ++ fields
  methods := inherited.methods.map (fun old => (methods.find? (·.name = old.name)).getD old) ++
    methods.filter fun method => !inherited.hasMethod method.name

/-- What the name of a field is taken by: something inherited, or one of the class's `earlier` fields. -/
def fieldClash? (inherited : Members) (earlier : List String) (name : String) : Option Collision :=
  if inherited.hasField name then some .inheritedField
  else if inherited.hasMethod name then some .inheritedMethod
  else if name ∈ earlier then some .otherField
  else none

/-- What the name of a method is taken by: an inherited field, one of these `fields` of the class, or one of its `earlier` methods. -/
def methodClash? (inherited : Members) (fields earlier : List String) (name : String) : Option Collision :=
  if inherited.hasField name then some .inheritedField
  else if name ∈ fields then some .ownField
  else if name ∈ earlier then some .otherMethod
  else none

/-- One report for each of the members whose name is taken. -/
def clashes (clash? : List String → String → Option Collision) (className : String) : List String → List Symbol → Diagnostics
  | _, [] => []
  | earlier, member :: rest =>
    ((clash? earlier member.name).map (·.report className member)).toList ++ clashes clash? className (earlier ++ [member.name]) rest

/-- One report for each of a class's own members that collides, if methods collide with these of its fields. -/
def collisions (prog : Source.Program) (inherited : Members) (decl : ClassDecl) (fields : List String) : Diagnostics :=
  clashes (fieldClash? inherited) decl.symbol.name [] (decl.fields.map (·.symbol)) ++
    clashes (methodClash? inherited fields) decl.symbol.name [] ((methodSymbols prog decl).map (·.1))

/-- The fields of a class that take their names. One that has the name of an inherited method is never added to the class, so a
method of the class can still have that name. -/
def takenFields (inherited : Members) (decl : ClassDecl) : List String :=
  (decl.fields.map (·.symbol.name)).filter fun name => !inherited.hasMethod name

/-- The reports about a class's own members. -/
def duplicates (prog : Source.Program) (inherited : Members) (decl : ClassDecl) : Diagnostics :=
  collisions prog inherited decl (takenFields inherited decl)

variable {clash? : List String → String → Option Collision} {className : String}

theorem exists_report_of_mem_clashes {report : Diagnostic} (members : List Symbol) :
    ∀ earlier, report ∈ clashes clash? className earlier members →
      ∃ (collision : Collision) (member : Symbol), report = collision.report className member := by
  induction members with
  | nil => exact fun _ hmem => absurd hmem not_mem_nil
  | cons member rest ih =>
    intro earlier hmem
    rcases mem_append.mp hmem with hmem | hmem
    · obtain ⟨collision, -, rfl⟩ := Option.map_eq_some_iff.mp (Option.mem_toList.mp hmem)
      exact ⟨collision, member, rfl⟩
    · exact ih _ hmem

section

variable {inherited base : Members} {className : String} {merging : Merging}

/-- A loop that reports what collides, whatever else it keeps of the members it has gone through. -/
theorem foldl_reports {α : Type} {step : Merging → α → Merging} (sym : α → Symbol)
    {clash? : List String → String → Option Collision} (Inv : List α → Merging → Prop)
    (hs : ∀ done merging item, Inv done merging → Inv (done ++ [item]) (step merging item) ∧
      (step merging item).errors = merging.errors ++
        ((clash? (done.map (sym · |>.name)) (sym item).name).map (·.report className (sym item))).toList)
    (items done : List α) (hinv : Inv done merging) :
    Inv (done ++ items) (items.foldl step merging) ∧ (items.foldl step merging).errors =
      merging.errors ++ clashes clash? className (done.map (sym · |>.name)) (items.map sym) := by
  induction items generalizing done merging with
  | nil => simpa [clashes] using hinv
  | cons item rest ih =>
    obtain ⟨hn, he⟩ := hs done merging item hinv
    simpa [clashes, he] using ih (done ++ [item]) hn

/-- A class to which these of its own fields have been added. -/
structure FieldsAdded (inherited : Members) (done : List Variable) (merging : Merging) : Prop where
  methods : merging.members.methods = inherited.methods
  own : merging.own = []
  hasField : ∀ name, merging.members.hasField name = true ↔ inherited.hasField name = true ∨
    name ∈ done.map (·.symbol.name) ∧ inherited.hasMethod name = false
  clean : merging.errors = [] → merging.members.fields = inherited.fields ++ done.map fun field => ⟨field.symbol.name, field.ty⟩

theorem FieldsAdded.mergeField {done : List Variable} (h : FieldsAdded inherited done merging) (className : String) (field : Variable) :
    FieldsAdded inherited (done ++ [field]) (mergeField className inherited merging field) ∧
      (mergeField className inherited merging field).errors = merging.errors ++
        ((fieldClash? inherited (done.map (·.symbol.name)) field.symbol.name).map (·.report className field.symbol)).toList := by
  have hc : fieldCollision? inherited merging.members field.symbol.name =
      fieldClash? inherited (done.map (·.symbol.name)) field.symbol.name := by
    unfold fieldCollision? fieldClash?
    have := h.hasField field.symbol.name
    grind
  unfold Lower.mergeField
  rw [hc]
  have hn : ∀ name, name ∈ (done ++ [field]).map (·.symbol.name) ↔ name ∈ done.map (·.symbol.name) ∨ name = field.symbol.name := by
    simp
  cases hf : fieldClash? inherited (done.map (·.symbol.name)) field.symbol.name with
  | some collision =>
    refine ⟨⟨h.methods, h.own, fun name => ?_, by simp⟩, rfl⟩
    rw [h.hasField, hn]
    unfold fieldClash? at hf
    grind
  | none =>
    refine ⟨⟨h.methods, h.own, fun name => ?_, fun hcl => ?_⟩, (append_nil _).symm⟩
    · have hadd : (merging.members.addField ⟨field.symbol.name, field.ty⟩).hasField name = true ↔
          merging.members.hasField name = true ∨ field.symbol.name = name := by
        simp [Members.hasField, Members.addField]
      rw [hadd, h.hasField, hn]
      unfold fieldClash? at hf
      grind
    · simp [Members.addField, h.clean hcl]

/-- The method that takes the place of an inherited one has its name. -/
theorem name_override (methods : List Method) (old : Method) : ((methods.find? (·.name = old.name)).getD old).name = old.name := by
  cases hf : methods.find? (·.name = old.name) with
  | none => rfl
  | some found => simpa using find?_some hf

theorem names_extend (inherited : Members) (fields : List Field) (methods : List Method) :
    (inherited.extend fields methods).methods.map (·.name) =
      inherited.methods.map (·.name) ++ (methods.filter fun method => !inherited.hasMethod method.name).map (·.name) := by
  simp [Members.extend, name_override]

variable {members : Members} {name : String}

theorem Members.hasField_iff : members.hasField name = true ↔ name ∈ members.fields.map (·.name) := by
  simp [hasField]

theorem Members.hasMethod_iff : members.hasMethod name = true ↔ name ∈ members.methods.map (·.name) := by
  simp [hasMethod]

/-- A method of a new name is put where it stands once it is one of the class's own. -/
theorem methods_putMethod {methods : List Method} {method : Method}
    (hm : members.methods = (inherited.extend [] methods).methods) (hnew : ∀ old ∈ methods, old.name ≠ method.name) :
    (members.putMethod method).methods = (inherited.extend [] (methods ++ [method])).methods := by
  have hf : ∀ name, (methods ++ [method]).find? (·.name = name) =
      if method.name = name then some method else methods.find? (·.name = name) := by
    intro name
    by_cases heq : method.name = name
    · rw [find?_append, find?_eq_none.mpr fun old hold => by simpa [← heq] using hnew old hold]
      simp [heq]
    · simp [find?_append, heq]
  have hhas : members.hasMethod method.name = inherited.hasMethod method.name := by
    rw [Bool.eq_iff_iff, Members.hasMethod_iff, Members.hasMethod_iff, hm, names_extend, mem_append, or_iff_left]
    simpa using fun old hold _ => hnew old hold
  have hk : ∀ old ∈ methods.filter (fun method => !inherited.hasMethod method.name),
      (if old.name = method.name then method else old) = old := fun old hold => if_neg (hnew old (mem_filter.mp hold).1)
  simp only [Members.putMethod, hhas, hm, Members.extend, hf]
  by_cases hi : inherited.hasMethod method.name = true
  · rw [if_pos hi, map_append, map_congr_left hk, map_map]
    congr 1
    · refine map_congr_left fun old _ => ?_
      rw [Function.comp_apply, name_override]
      grind
    · simp [hi]
  · rw [if_neg hi]
    have ho : ∀ old ∈ inherited.methods, method.name ≠ old.name := by
      intro old hold heq
      exact hi (Members.hasMethod_iff.mpr (heq ▸ mem_map_of_mem hold))
    rw [filter_append, append_assoc]
    congr 1
    · exact map_congr_left fun old hold => by rw [if_neg (ho old hold)]
    · simp [hi]

/-- A class to whose `base` these of its own methods have been added. -/
structure MethodsAdded (inherited base : Members) (done : List (Symbol × FunctionId)) (merging : Merging) : Prop where
  fields : merging.members.fields = base.fields
  own : ∀ name, base.hasField name = false → inherited.hasField name = false → (name ∈ merging.own ↔ name ∈ done.map (·.1.name))
  clean : merging.errors = [] → merging.members.methods = (inherited.extend [] (done.map fun method => ⟨method.1.name, method.2⟩)).methods

theorem MethodsAdded.mergeMethod {fields : List String} {done : List (Symbol × FunctionId)}
    (hfl : ∀ name, base.hasField name = true ↔ inherited.hasField name = true ∨ name ∈ fields)
    (h : MethodsAdded inherited base done merging) (className : String) (method : Symbol × FunctionId) :
    MethodsAdded inherited base (done ++ [method]) (mergeMethod className inherited merging method) ∧
      (mergeMethod className inherited merging method).errors = merging.errors ++
        ((methodClash? inherited fields (done.map (·.1.name)) method.1.name).map (·.report className method.1)).toList := by
  have hhas : ∀ name, merging.members.hasField name = base.hasField name := fun name => by rw [Members.hasField, h.fields]; rfl
  have hc : methodCollision? inherited merging.members merging.own method.1.name =
      methodClash? inherited fields (done.map (·.1.name)) method.1.name := by
    unfold methodCollision? methodClash?
    have := h.own method.1.name
    grind
  have hn : ∀ name, name ∈ (done ++ [method]).map (·.1.name) ↔ name ∈ done.map (·.1.name) ∨ name = method.1.name := by
    simp
  unfold Lower.mergeMethod
  rw [hc]
  cases hf : methodClash? inherited fields (done.map (·.1.name)) method.1.name with
  | some collision =>
    refine ⟨⟨h.fields, fun name hb hi => ?_, by simp⟩, rfl⟩
    rw [h.own name hb hi, hn]
    unfold methodClash? at hf
    grind
  | none =>
    refine ⟨⟨h.fields, fun name hb hi => ?_, fun hcl => ?_⟩, (append_nil _).symm⟩
    · rw [hn, ← h.own name hb hi]
      simp
    · have hnew : method.1.name ∉ done.map (·.1.name) := by
        unfold methodClash? at hf
        grind
      rw [map_append]
      refine methods_putMethod (h.clean hcl) ?_
      simp only [forall_mem_map]
      exact fun old hold heq => hnew (heq ▸ mem_map_of_mem hold)

/-- What comes of a class that adds its own members to what it inherits. -/
theorem mergeOwn_eq (prog : Source.Program) (inherited : Members) (decl : ClassDecl) :
    (mergeOwn decl.symbol.name inherited decl.fields (methodSymbols prog decl)).errors = duplicates prog inherited decl ∧
      (duplicates prog inherited decl = [] → (mergeOwn decl.symbol.name inherited decl.fields (methodSymbols prog decl)).members =
          inherited.extend (ownFields decl) (ownMethods prog decl)) := by
  unfold mergeOwn
  have hs : FieldsAdded inherited [] ⟨inherited, [], []⟩ := ⟨rfl, rfl, by simp, by simp⟩
  obtain ⟨hf, he⟩ := foldl_reports (·.symbol) _ (fun _ _ field h => h.mergeField decl.symbol.name field) decl.fields [] hs
  generalize decl.fields.foldl (mergeField decl.symbol.name inherited) ⟨inherited, [], []⟩ = added at hf he ⊢
  have hb : MethodsAdded inherited added.members [] added := ⟨rfl, by simp [hf.own], fun _ => by simp [hf.methods, Members.extend]⟩
  have hfl : ∀ name, added.members.hasField name = true ↔ inherited.hasField name = true ∨ name ∈ takenFields inherited decl := by
    simpa [takenFields, mem_filter] using hf.hasField
  obtain ⟨hm, hall⟩ := foldl_reports (·.1) _
    (fun _ _ method h => h.mergeMethod hfl decl.symbol.name method) (methodSymbols prog decl) [] hb
  rw [he, nil_append] at hall
  refine ⟨hall, fun hc => ?_⟩
  have hfn := hm.clean (hall.trans hc)
  have hfr := hf.clean (he.trans (append_eq_nil_iff.mp hc).1)
  rw [← hm.fields] at hfr
  exact congrArg₂ Members.mk hfr hfn

end

/-! ## Lineages -/

/-- The classes from the one with this id up to one without a parent. -/
inductive Lineage (prog : Source.Program) : Option ClassId → List ClassDecl → Prop where
  | nil : Lineage prog none []
  | cons {id : ClassId} {decl : ClassDecl} {above : List ClassDecl} (hdecl : prog.classes[id]? = some decl)
    (habove : Lineage prog decl.parent above) : Lineage prog (some id) (decl :: above)

/-- All members of a class with this lineage. -/
def allMembers (prog : Source.Program) : List ClassDecl → Members
  | [] => .none
  | decl :: above => (allMembers prog above).extend (ownFields decl) (ownMethods prog decl)

/-- No class of the lineage has a member that collides. -/
def Clean (prog : Source.Program) : List ClassDecl → Prop
  | [] => True
  | decl :: above => Clean prog above ∧ duplicates prog (allMembers prog above) decl = []

open Classical in
/-- The members of a class whose lineage is clean. Where there is no class there are no members, and nothing is wrong. -/
noncomputable def membersOf? (prog : Source.Program) (id : Option ClassId) : Option Members :=
  if h : ∃ lineage, Lineage prog id lineage ∧ Clean prog lineage then some (allMembers prog h.choose) else none

/-- The reports about a class's own members. There are none below a class that is left out. -/
noncomputable def duplicatesOf (prog : Source.Program) (decl : ClassDecl) : Diagnostics := match membersOf? prog decl.parent with
  | some inherited => duplicates prog inherited decl
  | none => []

/-- The layout of a class, unless it is left out. -/
noncomputable def layoutOf? (prog : Source.Program) (entry : ClassId × ClassDecl) : Option ClassLayout :=
  (membersOf? prog (some entry.1)).map fun members => ⟨entry.2.symbol, entry.2.ty, members.fields, members.methods⟩

section

variable {prog : Source.Program} {id : Option ClassId} {decl : ClassDecl} {lineage : List ClassDecl} {members : Members}

theorem Lineage.unique (h : Lineage prog id lineage) {other : List ClassDecl} (ho : Lineage prog id other) : lineage = other := by
  induction h generalizing other with
  | nil =>
    cases ho
    rfl
  | cons hd _ ih =>
    obtain _ | ⟨hd', ha⟩ := ho
    cases hd.symm.trans hd'
    rw [ih ha]

theorem lt_of_mem_ownMethods {method : Method} (h : method ∈ ownMethods prog decl) : method.subroutine < prog.functions.length := by
  obtain ⟨named, hn, rfl⟩ := mem_map.mp h
  obtain ⟨id, -, hid⟩ := mem_filterMap.mp hn
  obtain ⟨fn, hf, rfl⟩ := Option.map_eq_some_iff.mp hid
  exact (List.getElem?_eq_some_iff.mp hf).1

/-- Whatever class a method comes from, it is a function of the program. -/
theorem lt_of_mem_allMembers (lineage : List ClassDecl) :
    ∀ method ∈ (allMembers prog lineage).methods, method.subroutine < prog.functions.length := by
  induction lineage with
  | nil => exact fun _ hmem => absurd hmem not_mem_nil
  | cons decl above ih =>
    intro method hmem
    rcases mem_append.mp hmem with hmem | hmem
    · obtain ⟨old, hold, rfl⟩ := mem_map.mp hmem
      cases hf : (ownMethods prog decl).find? (·.name = old.name) with
      | none => exact ih old hold
      | some method => exact lt_of_mem_ownMethods (mem_of_find?_eq_some hf)
    · exact lt_of_mem_ownMethods (mem_filter.mp hmem).1

theorem membersOf?_eq_some_iff : membersOf? prog id = some members ↔
    ∃ lineage, Lineage prog id lineage ∧ Clean prog lineage ∧ allMembers prog lineage = members := by
  unfold membersOf?
  split
  · rename_i h
    rw [Option.some.injEq]
    refine ⟨fun heq => ⟨_, h.choose_spec.1, h.choose_spec.2, heq⟩, ?_⟩
    rintro ⟨lineage, hl, -, rfl⟩
    rw [h.choose_spec.1.unique hl]
  · rename_i h
    simp only [reduceCtorEq, false_iff]
    rintro ⟨lineage, hl, hc, -⟩
    exact h ⟨lineage, hl, hc⟩

/-- What a class has comes from what it inherits and what it declares. -/
theorem membersOf?_eq_some_iff_inherits {id : ClassId} (hd : prog.classes[id]? = some decl) :
    membersOf? prog (some id) = some members ↔ ∃ inherited, membersOf? prog decl.parent = some inherited ∧
      duplicates prog inherited decl = [] ∧ inherited.extend (ownFields decl) (ownMethods prog decl) = members := by
  simp only [membersOf?_eq_some_iff]
  constructor
  · rintro ⟨_, _ | ⟨hf, ha⟩, hc, rfl⟩
    cases hd.symm.trans hf
    exact ⟨_, ⟨_, ha, hc.1, rfl⟩, hc.2, rfl⟩
  · rintro ⟨_, ⟨above, ha, hca, rfl⟩, hc, rfl⟩
    exact ⟨decl :: above, .cons hd ha, ⟨hca, hc⟩, rfl⟩

end

/-! ## What a lineage adds up to -/

/-- What inheritance prescribes for the members of a class with the ancestors `above`, which inherits `inherited`. -/
structure Inherits (prog : Source.Program) (decl : ClassDecl) (above : List ClassDecl) (inherited members : Members) : Prop where
  fields_eq : members.fields = inherited.fields ++ ownFields decl
  methods_eq : members.methods = inherited.methods.map (fun old => ((ownMethods prog decl).find? (·.name = old.name)).getD old) ++
      (ownMethods prog decl).filter fun method => !inherited.hasMethod method.name
  /-- The method of a name is that of the nearest class that has one. -/
  nearest : ∀ name, members.methods.find? (·.name = name) =
    (decl :: above).findSome? fun decl => (ownMethods prog decl).find? (·.name = name)
  fieldNames : inherited.fields.map (·.name) <+: members.fields.map (·.name)
  methodNames : inherited.methods.map (·.name) <+: members.methods.map (·.name)
  distinct : (members.fields.map (·.name) ++ members.methods.map (·.name)).Nodup

/-- A method is looked for among the class's own first. -/
theorem find?_extend (inherited : Members) (fields : List Field) (methods : List Method) (name : String) :
    (inherited.extend fields methods).methods.find? (·.name = name) =
      (methods.find? (·.name = name)).or (inherited.methods.find? (·.name = name)) := by
  have hs : ((fun method : Method => decide (method.name = name)) ∘ fun old => (methods.find? (·.name = old.name)).getD old) =
      fun old => decide (old.name = name) := by
    funext old
    rw [Function.comp_apply, name_override]
  rw [Members.extend, find?_append, find?_map, hs]
  cases hold : inherited.methods.find? (·.name = name) with
  | some old =>
    have hn : old.name = name := by simpa using find?_some hold
    cases hf : methods.find? (·.name = name) <;> simp [hn, hf]
  | none =>
    have hhas : inherited.hasMethod name = false := by simpa [Members.hasMethod] using hold
    rw [Option.map_none, Option.none_or, Option.or_none, find?_filter]
    congr 1
    funext method
    by_cases heq : method.name = name <;> simp [heq, hhas]

theorem find?_allMembers (prog : Source.Program) (lineage : List ClassDecl) (name : String) :
    (allMembers prog lineage).methods.find? (·.name = name) =
      lineage.findSome? fun decl => (ownMethods prog decl).find? (·.name = name) := by
  induction lineage with
  | nil => rfl
  | cons decl above ih =>
    rw [allMembers, find?_extend, ih, findSome?_cons]
    cases (ownMethods prog decl).find? (·.name = name) <;> rfl

/-- Members that do not collide differ in their names. -/
theorem nodup_of_clashes_eq_nil (P : String → Prop)
    (hc : ∀ earlier name, clash? earlier name = none → name ∉ earlier ∧ P name) {earlier : List String}
    {syms : List Symbol} (h : clashes clash? className earlier syms = []) :
    (syms.map (·.name)).Nodup ∧ ∀ name ∈ syms.map (·.name), name ∉ earlier ∧ P name := by
  induction syms generalizing earlier with
  | nil => simp
  | cons member rest ih =>
    obtain ⟨hf, hr⟩ := append_eq_nil_iff.mp h
    obtain ⟨hnd, hall⟩ := ih hr
    have hm := hc earlier member.name (by simpa using hf)
    refine ⟨nodup_cons.mpr ⟨fun hmem => (hall _ hmem).1 (by simp), hnd⟩, forall_mem_cons.mpr ⟨hm, fun name hn => ?_⟩⟩
    exact ⟨fun hold => (hall name hn).1 (mem_append_left _ hold), (hall name hn).2⟩

/-- No two members of a clean lineage have the same name. -/
theorem nodup_allMembers {prog : Source.Program} {lineage : List ClassDecl} (h : Clean prog lineage) :
    ((allMembers prog lineage).fields.map (·.name) ++ (allMembers prog lineage).methods.map (·.name)).Nodup := by
  induction lineage with
  | nil => exact nodup_nil
  | cons decl above ih =>
    obtain ⟨hfc, hmc⟩ := append_eq_nil_iff.mp h.2
    have hi := ih h.1
    rw [allMembers]
    generalize allMembers prog above = inherited at hi hfc hmc ⊢
    obtain ⟨hfs, hf⟩ := nodup_of_clashes_eq_nil
      (fun name => ¬ inherited.hasField name = true ∧ ¬ inherited.hasMethod name = true) (by grind [fieldClash?]) hfc
    obtain ⟨hms, hm⟩ := nodup_of_clashes_eq_nil
      (fun name => ¬ inherited.hasField name = true ∧ (name ∈ decl.fields.map (·.symbol.name) → inherited.hasMethod name = true))
      (by grind [methodClash?, takenFields]) hmc
    have hnew : ((ownMethods prog decl).filter fun method => !inherited.hasMethod method.name).map (·.name) =
        (((methodSymbols prog decl).map (·.1)).map (·.name)).filter fun name => !inherited.hasMethod name := by
      simp [ownMethods, filter_map, Function.comp_def]
    have hp : ∀ name, (!inherited.hasMethod name) = true ↔ name ∉ inherited.methods.map (·.name) := by
      simp [Members.hasMethod]
    rw [names_extend, hnew]
    simp only [Members.hasField_iff, Members.hasMethod_iff] at hf hm
    simp only [Members.extend, ownFields, map_append, map_map, Function.comp_def] at *
    generalize inherited.fields.map (·.name) = oldFields, inherited.methods.map (·.name) = oldMethods,
      decl.fields.map (·.symbol.name) = fields, (methodSymbols prog decl).map (·.1.name) = methods at *
    grind

/-- The members of a class that is laid out are what inheritance prescribes. -/
theorem inherits_of_membersOf? {prog : Source.Program} {id : ClassId} {decl : ClassDecl} {members : Members}
    (hd : prog.classes[id]? = some decl) (h : membersOf? prog (some id) = some members) :
    ∃ above inherited, Lineage prog decl.parent above ∧ membersOf? prog decl.parent = some inherited ∧
      Inherits prog decl above inherited members := by
  obtain ⟨_, _ | ⟨hf, ha⟩, hc, rfl⟩ := membersOf?_eq_some_iff.mp h
  cases hd.symm.trans hf
  refine ⟨_, _, ha, membersOf?_eq_some_iff.mpr ⟨_, ha, hc.1, rfl⟩, rfl, rfl, find?_allMembers prog _, ?_, ?_, nodup_allMembers hc⟩
  · simp [allMembers, Members.extend]
  · rw [allMembers, names_extend]
    exact prefix_append _ _

end TagAsm.Lower
