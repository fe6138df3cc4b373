import TagAsm.Proofs.MergedClasses

/-!
# What a compiled program has from its source

Functions become subroutines of the same number, with the same name, type and linkage, and with a body exactly if the function
has one. A class that is laid out lists functions of the program only. Merging blocks changes none of that, and all that
lowering reports are errors of its own.
-/

namespace TagAsm.Lower

open TagAsm.Flow
open Source (FunctionId Function)

/-! ## Functions -/

/-- What a subroutine has from the function, with this id, that it was made from. -/
structure StandsFor (src : Source.Program) (entry : FunctionId × Function) (sub : Subroutine) : Prop where
  symbol_eq : sub.symbol = entry.2.symbol
  ty_eq : sub.ty = entry.2.ty
  linkage_eq : sub.linkage = entry.2.linkage
  owner_eq : sub.owner = ownerOf src entry.1
  body_isSome : sub.body?.isSome = hasBody entry.2
  placed : ∀ body, sub.kind = .defined body → body.Placed

variable {src : Source.Program}

/-- What a function consists of is lowered to the like, and errors are all that is reported. -/
theorem lowerKind_standsFor {fn : Function} {lowering after : Lowering} {kind : SubroutineKind}
    (h : lowerKind src fn lowering = .ok (kind, after)) :
    after.subroutines = lowering.subroutines ∧ Diagnostics.Adds .lowering lowering.diagnostics after.diagnostics ∧
      ∀ sym ty linkage owner, (Subroutine.mk sym ty linkage owner kind).body?.isSome = hasBody fn ∧
        ∀ body, kind = .defined body → body.Placed := by
  unfold lowerKind at h
  unfold hasBody
  split at h
  · rename_i params locals body hk
    obtain ⟨⟨graph, last⟩, hb, hd⟩ := of_bind_eq_ok h
    cases hd
    obtain ⟨_, _, _, _, ⟨⟩, hp, rfl⟩ := lowerBody_pruned hb
    refine ⟨rfl, diagnostics_draftBody _ _ _ _ _ _ _, fun _ _ _ _ => ⟨rfl, fun body heq => ?_⟩⟩
    rw [← SubroutineKind.defined.inj heq]
    exact Body.MergeSteps.placed (.single (.prune hp)) (placed_draftBody _ _ _ _ _ _ _)
  all_goals
    cases h
    exact ⟨rfl, .refl _ _, fun _ _ _ _ => ⟨rfl, fun _ heq => by cases heq⟩⟩

/-- One function after the other is lowered to the subroutine that stands for it. -/
theorem lowerFunction_standsFor (src : Source.Program) (start : Diagnostics) (done : List (FunctionId × Function))
    (lowering : Lowering) (entry : FunctionId × Function) (after : Lowering)
    (hl : List.Forall₂ (StandsFor src) done lowering.subroutines ∧ Diagnostics.Adds .lowering start lowering.diagnostics)
    (h : lowerFunction src lowering entry = .ok after) :
    List.Forall₂ (StandsFor src) (done ++ [entry]) after.subroutines ∧ Diagnostics.Adds .lowering start after.diagnostics := by
  obtain ⟨⟨kind, low⟩, hk, hr⟩ := of_bind_eq_ok h
  obtain ⟨hs, ha, hb⟩ := lowerKind_standsFor hk
  cases hr
  refine ⟨?_, hl.2.trans ha⟩
  obtain ⟨hsm, hp⟩ := hb entry.2.symbol entry.2.ty entry.2.linkage (ownerOf src entry.1)
  have he : StandsFor src entry ⟨entry.2.symbol, entry.2.ty, entry.2.linkage, ownerOf src entry.1, kind⟩ := ⟨rfl, rfl, rfl, rfl, hsm, hp⟩
  rw [Table.push, hs]
  exact List.rel_append hl.1 (.cons he .nil)

/-- Merging the blocks of a subroutine leaves what it has from its function. -/
theorem StandsFor.merge {entry : FunctionId × Function} {pool : Table Literal} {sub merged : Subroutine}
    (h : StandsFor src entry sub) (hb : ∀ body, sub.kind = .defined body → body.WellFormed pool)
    (hm : sub.merge = .ok merged) : StandsFor src entry merged := by
  unfold Subroutine.merge at hm
  split at hm
  · rename_i body hk
    obtain ⟨removed, res, hok, hst⟩ := Body.merge_eq_ok (hb body hk).wired
    rw [hok] at hm
    cases hm
    have hs : hasBody entry.2 = true := by
      rw [← h.body_isSome, Subroutine.body?, hk]
      rfl
    refine ⟨h.symbol_eq, h.ty_eq, h.linkage_eq, h.owner_eq, hs.symm, fun body heq => ?_⟩
    rw [← SubroutineKind.defined.inj heq]
    exact hst.placed (h.placed _ hk)
  · cases hm
    exact h
  · cases hm
    exact h

/-! ## Classes -/

variable {diags after : Diagnostics}

/-- Classes that are laid out list functions of the program, and errors are all that is reported. -/
theorem lowerClasses_fine {classes : List ClassLayout} (h : lowerClasses src diags = .ok (classes, after)) :
    (∀ decl ∈ classes, ∀ method ∈ decl.methods, method.subroutine < src.functions.length) ∧ Diagnostics.Adds .lowering diags after := by
  obtain ⟨reports, rfl, hl⟩ := classesLowered_of_eq_ok h
  refine ⟨fun decl hd => ?_, reports, rfl, fun report hr => ?_⟩
  · rw [hl.classes_eq] at hd
    obtain ⟨entry, -, he⟩ := List.mem_filterMap.mp hd
    obtain ⟨members, hm, rfl⟩ := Option.map_eq_some_iff.mp he
    obtain ⟨lineage, -, -, rfl⟩ := membersOf?_eq_some_iff.mp hm
    exact lt_of_mem_allMembers lineage
  · rcases hl.report_cases hr with ⟨_, rfl⟩ | ⟨_, _, _, rfl⟩ <;> exact ⟨rfl, rfl⟩

/-! ## Programs -/

/-- What a flow program has from the source that it was made from. -/
structure Renders (src : Source.Program) (prog : Flow.Program) : Prop where
  subroutines : List.Forall₂ (StandsFor src) src.functions.entries prog.subroutines
  wellFormed : prog.WellFormed
  types_eq : prog.types = src.types
  classNames_eq : prog.classNames = src.classes.map (·.symbol.name)
  defined_eq : prog.defined = functionsWhere src fun function => hasBody function && !function.isMethod
  entry_eq : prog.entry = src.entry
  methods_lt : ∀ decl ∈ prog.classes, ∀ method ∈ decl.methods, method.subroutine < prog.subroutines.length

theorem length_entries {α : Type} (rows : Table α) : rows.entries.length = rows.length := by
  simp [Table.entries]

theorem getElem?_entries {α : Type} (rows : Table α) (id : Nat) : rows.entries[id]? = rows[id]?.map fun row => (id, row) := by
  simp [Table.entries, List.getElem?_zipIdx, Function.comp_def]

/-- Lowering renders its source, and adds errors of its own to what was reported. -/
theorem lowerProgram_renders {prog : Flow.Program} (h : lowerProgram src diags = .ok (prog, after)) :
    Renders src prog ∧ Diagnostics.Adds .lowering diags after := by
  have hw := lowerProgram_wellFormed h
  obtain ⟨lowering, hf, hr⟩ := of_bind_eq_ok h
  obtain ⟨⟨classes, last⟩, hc, hrs⟩ := of_bind_eq_ok hr
  cases hrs
  obtain ⟨hall, ha⟩ := foldlM_reaches (fun done lowering => List.Forall₂ (StandsFor src) done lowering.subroutines ∧
      Diagnostics.Adds .lowering diags lowering.diagnostics)
    (lowerFunction_standsFor src diags) _ ⟨.nil, .refl _ _⟩ hf
  obtain ⟨hms, hls⟩ := lowerClasses_fine hc
  refine ⟨⟨hall, hw, rfl, rfl, rfl, rfl, fun decl hd method hm => ?_⟩, ha.trans hls⟩
  have hl := hall.length_eq
  rw [length_entries] at hl
  exact hl ▸ hms decl hd method hm

namespace Renders

variable {src : Source.Program} {prog : Flow.Program}

/-- Merging blocks leaves what a program has from its source. -/
theorem merge (h : Renders src prog) {merged : Program} (hm : prog.merge = .ok merged) : Renders src merged := by
  have hw := h.wellFormed.merge hm
  obtain ⟨subroutines, hmap, hr⟩ := of_bind_eq_ok hm
  cases hr
  have hall := (mapM_eq_ok_iff_forall₂ Subroutine.merge prog.subroutines subroutines).mp hmap
  refine ⟨?_, hw, h.types_eq, h.classNames_eq, h.defined_eq, h.entry_eq, fun decl hd method hmt => ?_⟩
  · refine List.forall₂_iff_get.mpr ⟨h.subroutines.length_eq.trans hall.length_eq, fun id hid hid' => ?_⟩
    have hlt : id < prog.subroutines.length := h.subroutines.length_eq ▸ hid
    have hb : prog.subroutines[id]? = some prog.subroutines[id] := List.getElem?_eq_getElem hlt
    have hs : StandsFor src (src.functions.entries.get ⟨id, hid⟩) prog.subroutines[id] :=
      (List.forall₂_iff_get.mp h.subroutines).2 id hid hlt
    exact hs.merge (fun body => h.wellFormed.bodies id _ body hb) ((List.forall₂_iff_get.mp hall).2 id hlt hid')
  · exact hall.length_eq ▸ h.methods_lt decl hd method hmt

variable (h : Renders src prog)
include h

/-- The function that a subroutine stands for. -/
theorem exists_function {id : SubroutineId} {sub : Subroutine} (hid : prog.subroutines[id]? = some sub) :
    ∃ fn, src.functions[id]? = some fn ∧ StandsFor src (id, fn) sub := by
  obtain ⟨entry, he, hs⟩ := getElem?_of_forall₂ h.subroutines.flip hid
  rw [getElem?_entries] at he
  obtain ⟨fn, hf, rfl⟩ := Option.map_eq_some_iff.mp he
  exact ⟨fn, hf, hs⟩

/-- The subroutine that stands for a function. -/
theorem exists_subroutine {id : FunctionId} {fn : Function} (hid : src.functions[id]? = some fn) :
    ∃ sub, prog.subroutines[id]? = some sub ∧ StandsFor src (id, fn) sub := by
  have he : src.functions.entries[id]? = some (id, fn) := by rw [getElem?_entries, hid, Option.map_some]
  exact getElem?_of_forall₂ h.subroutines he

/-- The subroutines that are emitted in any case: those with a body, methods apart. -/
theorem mem_defined {id : SubroutineId} : id ∈ prog.defined ↔
      ∃ fn, src.functions[id]? = some fn ∧ hasBody fn = true ∧ fn.isMethod = false := by
  rw [h.defined_eq, functionsWhere, List.mem_map]
  constructor
  · rintro ⟨⟨found, fn⟩, hmem, rfl⟩
    obtain ⟨he, ht⟩ := List.mem_filter.mp hmem
    exact ⟨fn, Table.mem_entries.mp he, by simpa using ht⟩
  · rintro ⟨fn, hf, ht⟩
    exact ⟨(id, fn), List.mem_filter.mpr ⟨Table.mem_entries.mpr hf, by simpa using ht⟩, rfl⟩

end Renders

/-- A program that was lowered renders its source, whether its blocks were merged or not. -/
theorem renders_of_lowerProgram {low prog : Program} (hl : lowerProgram src diags = .ok (low, after))
    (hp : prog = low ∨ low.merge = .ok prog) : Renders src prog := by
  obtain ⟨hr, -⟩ := lowerProgram_renders hl
  rcases hp with rfl | hm
  · exact hr
  · exact hr.merge hm

end TagAsm.Lower

namespace TagAsm

/-- What comes out of lowering and merging renders its source, and only errors of lowering were reported. -/
theorem compileToFlow_renders {options : Options} {src : Source.Program} {diags after : Diagnostics}
    {prog : Flow.Program} (h : (compileToFlow options src).run.run diags = .ok (.ok prog, after)) :
    Lower.Renders src prog ∧ Diagnostics.Adds .lowering diags after := by
  obtain ⟨low, hl, hm⟩ := lowerProgram_of_compileToFlow_eq_ok h
  exact ⟨Lower.renders_of_lowerProgram hl hm, (Lower.lowerProgram_renders hl).2⟩

end TagAsm
