import TagAsm.Proofs.Assembling
import TagAsm.Proofs.Reporting

/-!
# No name is defined twice

Subroutines and initializers take their symbols from one stock of free names, in which the symbols of helpers and the start symbol
are taken from the beginning; and each of them is emitted once at most. All other labels are made from these symbols, or are those
of strings, which look different. So no two labels of a unit are the same.
-/

namespace TagAsm.Select

open Asm Abi List SymbolTable
open TagAsm.Flow (SubroutineId Subroutine)

/-- What keeps the symbols of a program apart: names are not empty, what has a body goes by its own name, and no method is emitted
together with the functions. -/
structure Context.Tidy (cx : Context) : Prop where
  names : ∀ sub ∈ cx.program.subroutines, sub.symbol.name ≠ ""
  classNames : ∀ name ∈ cx.program.classNames, name ≠ ""
  native : ∀ sub ∈ cx.program.subroutines, sub.body?.isSome = true → sub.isForeign = false
  defined_nodup : cx.program.defined.Nodup
  defined_owner : ∀ id ∈ cx.program.defined, ∀ sub, cx.program.subroutines[id]? = some sub →
    sub.owner = none

/-- What a piece of work is about: a subroutine, or the type of a class. -/
def Work.subject : Work → SubroutineId ⊕ TypeId
  | .subroutine id => .inl id
  | .initializer ty _ => .inr ty

/-- The names that are taken from the beginning. -/
def reservedNames : List String := startSymbol :: Helper.all.map Helper.symbol

theorem isGlobal_of_mem_reservedNames : ∀ name ∈ reservedNames, IsGlobal name := by
  have hh : ∀ name ∈ reservedNames, name.toList.head?.any (· ≠ '.') = true := by decide +kernel
  intro name hn
  have hf := hh name hn
  cases hl : name.toList with
  | nil => simp [hl] at hf
  | cons first rest =>
    simp only [hl, head?_cons, Option.any_some, decide_eq_true_eq] at hf
    exact ⟨first, rest, hl, hf⟩

theorem mem_all (helper : Helper) : helper ∈ Helper.all := by
  cases helper with
  | make kind => cases kind <;> decide
  | unwrap kind => cases kind <;> decide
  | _ => decide

theorem symbol_ne_startSymbol (helper : Helper) : helper.symbol ≠ startSymbol := by
  have hall : ∀ helper ∈ Helper.all, helper.symbol ≠ startSymbol := by decide +kernel
  exact hall helper (mem_all helper)

section

variable {cx : Context} {syms : SymbolTable}

theorem Context.Tidy.typeName_ne_empty (htidy : cx.Tidy) {ty : TypeId} {name : String}
    (h : cx.program.typeName ty = .ok name) : name ≠ "" := by
  refine Asm.typeName_ne_empty (fun id found hf => ?_) h
  unfold Table.fetch at hf
  split at hf
  · rename_i row hrow
    obtain rfl := Except.ok.inj hf
    exact htidy.classNames row (mem_of_getElem? hrow)
  · cases hf

/-- The name that a subroutine would like to have does not look like a local label. -/
theorem Context.Tidy.isGlobal_baseName (htidy : cx.Tidy) {sub : Subroutine} (hsb : sub ∈ cx.program.subroutines) {base : String}
    (h : baseName cx.program sub = .ok base) : IsGlobal base := by
  unfold baseName at h
  split at h
  · obtain ⟨owner, ho, h⟩ := of_bind_eq_ok h
    cases h
    exact ((isGlobal_mangle (htidy.typeName_ne_empty ho)).append ".").append _
  · cases h
    exact isGlobal_mangle (htidy.names sub hsb)

/-- What has a body goes by its own name. -/
theorem Context.Tidy.ownName (htidy : cx.Tidy) {id : SubroutineId} {sub : Subroutine} {sym : String}
    (hid : cx.program.subroutines[id]? = some sub) (hb : sub.body?.isSome = true)
    (hsy : syms.subroutine? id = some sym) : OwnName cx.program.subroutines syms.subroutines id sym := by
  refine ⟨hsy, sub, hid, ?_⟩
  have hf := htidy.native sub (mem_of_getElem? hid) hb
  unfold nativeName?
  split
  · rename_i hk
    rw [Subroutine.body?, hk] at hb
    cases hb
  · simp [hf]

/-! ## Symbols -/

variable {kept : Selection} {han : List Work} {work other : Work} {sym : String}

/-- A symbol under which something is emitted is a subroutine's own, or was made for an initializer. -/
theorem Bookkept.symbol_cases (h : Bookkept cx syms han kept) (hprepared : cx.Prepared) (htidy : cx.Tidy)
    (ha : work ∈ allWork cx.program kept.symbols) (hsy : work.symbol? syms = some sym) :
    (∃ id, work = .subroutine id ∧ OwnName cx.program.subroutines syms.subroutines id sym) ∨
      ∃ ty, work = .initializer ty sym ∧ (ty, sym) ∈ kept.symbols.initializers := by
  rcases mem_allWork.mp ha with ⟨id, rfl, hd | hm⟩ | ⟨ty, name, rfl, he⟩
  · obtain ⟨sub, hsb, hb⟩ := hprepared.defined id hd
    exact Or.inl ⟨id, rfl, htidy.ownName hsb hb hsy⟩
  · obtain ⟨sub, hsb, hb, -⟩ := h.inOrder.methods id hm
    exact Or.inl ⟨id, rfl, htidy.ownName hsb hb hsy⟩
  · cases hsy
    exact Or.inr ⟨ty, rfl, he⟩

section

variable (h : Bookkept cx syms han kept) (hprepared : cx.Prepared) (htidy : cx.Tidy)
  (hs : SymbolTable.ofProgram cx.program (Helper.all.map Helper.symbol) = .ok syms)
  (ha : work ∈ allWork cx.program kept.symbols)
include h hprepared htidy hs ha

/-- Such a symbol is not reserved, and looks like none of the other labels. -/
theorem Bookkept.symbol_fresh (hsy : work.symbol? syms = some sym) : IsGlobal sym ∧ sym ∉ reservedNames := by
  obtain ⟨hn, -⟩ := named_ofProgram hs
  rcases h.symbol_cases hprepared htidy ha hsy with ⟨id, -, hown⟩ | ⟨ty, -, he⟩
  · refine ⟨?_, (hn.taken id sym hown).2⟩
    obtain ⟨sub, hid, -⟩ := hown.2
    obtain ⟨base, suffix, hb, rfl⟩ := hn.wanted id sub sym hid hown
    exact (htidy.isGlobal_baseName (mem_of_getElem? hid) hb).candidate suffix
  · obtain ⟨typeName, suffix, ht, hnm⟩ := h.inOrder.wanted (ty, sym) he
    refine ⟨?_, fun hr => ?_⟩
    · rw [show sym = candidate (mangle typeName ++ ".init") suffix from hnm]
      exact ((isGlobal_mangle (htidy.typeName_ne_empty ht)).append ".init").candidate suffix
    · exact h.inOrder.names_new sym (mem_map.mpr ⟨(ty, sym), he, rfl⟩) (hn.reserved_subset hr)

theorem Bookkept.symbol_inj (ho : other ∈ allWork cx.program kept.symbols)
    (hsy : work.symbol? syms = some sym) (hsm : other.symbol? syms = some sym) : work = other := by
  obtain ⟨hn, -⟩ := named_ofProgram hs
  -- the symbol of an initializer is none that a subroutine has
  have hap : ∀ id ty, OwnName cx.program.subroutines syms.subroutines id sym → (ty, sym) ∉ kept.symbols.initializers := by
    intro id ty hown he
    exact h.inOrder.names_new sym (mem_map.mpr ⟨(ty, sym), he, rfl⟩) (hn.taken id sym hown).1
  rcases h.symbol_cases hprepared htidy ha hsy with ⟨id, rfl, hown⟩ | ⟨ty, rfl, he⟩
  · rcases h.symbol_cases hprepared htidy ho hsm with ⟨id', rfl, hown'⟩ | ⟨ty, rfl, he⟩
    · rw [hn.distinct id id' sym hown hown']
    · exact absurd he (hap id ty hown)
  · rcases h.symbol_cases hprepared htidy ho hsm with ⟨id, rfl, hown⟩ | ⟨ty', rfl, he'⟩
    · exact absurd he (hap id ty hown)
    · have heq := inj_on_of_nodup_map h.inOrder.names_nodup he he' rfl
      rw [(Prod.mk.inj heq).1]

end

theorem Bookkept.nodup_subjects (h : Bookkept cx syms han kept) (htidy : cx.Tidy) :
    ((allWork cx.program kept.symbols).map Work.subject).Nodup := by
  have hsb : (allWork cx.program kept.symbols).map Work.subject
      = (cx.program.defined ++ kept.symbols.methods).map Sum.inl ++ (kept.symbols.initializers.map Prod.fst).map Sum.inr := by
    simp [allWork, askedFor, Work.subject, Function.comp_def]
  have hids : (cx.program.defined ++ kept.symbols.methods).Nodup := by
    rw [nodup_append']
    refine ⟨htidy.defined_nodup, h.inOrder.methods_nodup, fun id hd hm => ?_⟩
    obtain ⟨sub, hid, -, ho⟩ := h.inOrder.methods id hm
    rw [htidy.defined_owner id hd sub hid] at ho
    cases ho
  rw [hsb, nodup_append']
  refine ⟨hids.map fun _ _ heq => Sum.inl.inj heq, h.inOrder.types_nodup.map fun _ _ heq => Sum.inr.inj heq, ?_⟩
  intro subject hl hr
  obtain ⟨id, -, rfl⟩ := mem_map.mp hl
  obtain ⟨ty, -, heq⟩ := mem_map.mp hr
  cases heq

/-! ## Labels -/

variable {diags : Diagnostics} {parts : List (Work × Outcome)} {drained last : Emission} {items : List Item}

/-- The labels of a piece of work: its symbol, and labels with different roles in its code. -/
theorem Emits.labels_perm (h : Emits cx syms work items) :
    ∃ sym roles, work.symbol? syms = some sym ∧ (labels items).Perm (ownLabels sym roles) ∧ roles.Nodup ∧
      ∀ role ∈ roles, '.' ∉ role.toList := by
  cases h with
  | @subroutine id sub body sym _ frame hid hb hsy hc hl =>
    exact ⟨sym, routineRoles cx sym body, hsy, hl, nodup_routineRoles cx sym body, fun role hr => dot_not_mem_role hr⟩
  | @initializer ty sym _ hl =>
    refine ⟨sym, [], rfl, ?_, nodup_nil, forall_mem_nil _⟩
    rw [hl]
    exact Perm.refl _

theorem Selected.mem_allWork (h : Selected cx diags syms parts drained last) (hprepared : cx.Prepared)
    {part : Work × Outcome} (hp : part ∈ parts) : part.1 ∈ allWork cx.program drained.kept.symbols :=
  (h.perm hprepared).mem_iff.mp (mem_map_of_mem hp)

variable (h : Selected cx diags syms parts drained last) (hprepared : cx.Prepared) (htidy : cx.Tidy)
include h hprepared htidy

theorem Selected.subjects_nodup : (parts.map fun part => part.1.subject).Nodup := by
  have hp := (h.perm hprepared).map Work.subject
  rw [map_map] at hp
  exact hp.nodup_iff.mpr ((h.bookkept hprepared).nodup_subjects htidy)

/-- The labels of a piece of work that was emitted: a symbol that is free, and labels with different roles in its code. -/
theorem Selected.emitted_labels (hp : (work, Outcome.emitted items) ∈ parts) :
    ∃ sym roles, work.symbol? syms = some sym ∧ IsGlobal sym ∧ sym ∉ reservedNames ∧
      (labels items).Perm (ownLabels sym roles) ∧ roles.Nodup ∧ ∀ role ∈ roles, '.' ∉ role.toList := by
  obtain ⟨sym, roles, hsy, hl, hn, hr⟩ := ((h.assembled hprepared).emits work items hp).labels_perm
  obtain ⟨hg, hf⟩ := (h.bookkept hprepared).symbol_fresh hprepared htidy h.symbols_eq (h.mem_allWork hprepared hp) hsy
  exact ⟨sym, roles, hsy, hg, hf, hl, hn, hr⟩

/-- Different pieces of work have no label in common, as they have different symbols. -/
theorem Selected.disjoint_labels {items' : List Item} (hne : work ≠ other) (hp : (work, Outcome.emitted items) ∈ parts)
    (hp' : (other, Outcome.emitted items') ∈ parts) : (labels items).Disjoint (labels items') := by
  obtain ⟨sym, roles, hsy, hg, -, hls, -, hr⟩ := h.emitted_labels hprepared htidy hp
  obtain ⟨symbol', roles', hsy', hg', -, hls', -, hr'⟩ := h.emitted_labels hprepared htidy hp'
  have hd : sym ≠ symbol' := by
    rintro rfl
    exact hne ((h.bookkept hprepared).symbol_inj hprepared htidy h.symbols_eq (h.mem_allWork hprepared hp)
      (h.mem_allWork hprepared hp') hsy hsy')
  intro label hl hl'
  exact disjoint_ownLabels hg hg' hd hr hr' (hls.mem_iff.mp hl) (hls'.mem_iff.mp hl')

/-- No label of the text is a reserved name, or looks like that of a string. -/
theorem Selected.label_fresh {label : String} (hl : label ∈ labels drained.text) :
    label ∉ reservedNames ∧ ∀ id, label ≠ stringName id := by
  rw [mem_labels, (h.assembled hprepared).text_eq] at hl
  obtain ⟨⟨work, out⟩, hp, hi⟩ := mem_flatMap.mp hl
  cases out with
  | refused refusal => cases hi
  | absent => cases hi
  | emitted items =>
    obtain ⟨sym, roles, hsy, hg, hf, hls, -, -⟩ := h.emitted_labels hprepared htidy hp
    rcases mem_cons.mp (hls.mem_iff.mp (mem_labels.mpr hi)) with rfl | hrl
    · exact ⟨hf, fun id => hg.ne_stringName id⟩
    · obtain ⟨role, -, rfl⟩ := mem_map.mp hrl
      refine ⟨fun hr => ?_, fun id => localLabel_ne_stringName sym role id⟩
      exact (isGlobal_of_mem_reservedNames _ hr).ne_localLabel sym role rfl

/-- No label of the text is defined twice. -/
theorem Selected.nodup_labels : (labels drained.text).Nodup := by
  have hl : labels drained.text = parts.flatMap fun part => labels part.2.items := by
    rw [(h.assembled hprepared).text_eq, labels, filterMap_flatMap]
    rfl
  have hsb := h.subjects_nodup hprepared htidy
  rw [hl, nodup_flatMap]
  constructor
  · rintro ⟨work, out⟩ hp
    cases out with
    | refused refusal => exact nodup_nil
    | absent => exact nodup_nil
    | emitted items =>
      obtain ⟨sym, roles, -, hg, -, hpr, hr, -⟩ := h.emitted_labels hprepared htidy hp
      exact hpr.nodup_iff.mpr (nodup_ownLabels hg hr)
  · refine (Nodup.of_map _ hsb).pairwise_of_forall_ne ?_
    rintro ⟨work, out⟩ hp ⟨other, outcome'⟩ hp' hne
    -- no piece of work is there twice
    have hw : work ≠ other := by
      rintro rfl
      exact hne (inj_on_of_nodup_map hsb hp hp' rfl)
    cases out with
    | refused | absent => exact disjoint_nil_left _
    | emitted items =>
      cases outcome' with
      | refused | absent => exact disjoint_nil_right _
      | emitted items' => exact h.disjoint_labels hprepared htidy hw hp hp'

/-- No name is defined twice in a unit, and none that is reserved, but the start symbol. -/
theorem Selected.nodup_defined :
    (last.toUnit cx.debugInfo).defined.Nodup ∧ ∀ helper, Helper.symbol helper ∉ (last.toUnit cx.debugInfo).defined := by
  obtain ⟨start, hsts⟩ := starts_of_emitStart h.emitStart_eq
  have hsr : ((range last.kept.symbols.strings.length).map stringName).Nodup := nodup_range.map fun _ _ heq => stringName_inj.mp heq
  have hd : (last.toUnit cx.debugInfo).defined
      = labels start ++ labels drained.text ++ (range last.kept.symbols.strings.length).map stringName := by
    rw [AssemblyUnit.defined, toUnit_text, hsts.text_eq, labels_append, labels_toUnit_rodata]
  -- the labels of the start: the start symbol, if anything
  have hst : (labels start).Nodup ∧ ∀ label ∈ labels start, label = startSymbol := by
    rcases hsts.labels with hn | hone
    · simp [hn]
    · simp [hone]
  have hr : startSymbol ∈ reservedNames := mem_cons_self
  refine ⟨?_, fun helper hmem => ?_⟩
  · rw [hd, nodup_append', nodup_append']
    refine ⟨⟨hst.1, h.nodup_labels hprepared htidy, fun label hl hmem => ?_⟩, hsr, fun label hl hmem => ?_⟩
    · obtain rfl := hst.2 label hl
      exact (h.label_fresh hprepared htidy hmem).1 hr
    · obtain ⟨id, -, rfl⟩ := mem_map.mp hmem
      rcases mem_append.mp hl with hl | hl
      · exact isGlobal_startSymbol.ne_stringName id (hst.2 _ hl).symm
      · exact (h.label_fresh hprepared htidy hl).2 id rfl
  · have hh : helper.symbol ∈ reservedNames := mem_cons_of_mem _ (mem_map_of_mem (mem_all helper))
    rw [hd] at hmem
    rcases mem_append.mp hmem with hmem | hmem
    · rcases mem_append.mp hmem with hmem | hmem
      · exact symbol_ne_startSymbol helper (hst.2 _ hmem)
      · exact (h.label_fresh hprepared htidy hmem).1 hh
    · obtain ⟨id, -, heq⟩ := mem_map.mp hmem
      exact (isGlobal_of_mem_reservedNames _ hh).ne_stringName id heq.symm

end

end TagAsm.Select

namespace TagAsm.Lower

/-- What is asked of a source keeps the symbols of its program apart. -/
theorem Renders.tidy {src : Source.Program} {prog : Flow.Program} (h : Renders src prog) (hns : ∀ fn ∈ src.functions, fn.symbol.name ≠ "")
    (hc : ∀ decl ∈ src.classes, decl.symbol.name ≠ "")
    (hms : ∀ decl ∈ src.classes, ∀ id ∈ decl.methods, ∀ fn, src.functions[id]? = some fn → fn.isMethod = true)
    (hfr : ∀ fn ∈ src.functions, hasBody fn = true → fn.linkage ≠ .foreign) (debug colored : Bool) :
    Select.Context.Tidy ⟨prog, debug, colored⟩ := by
  have hf : ∀ sub ∈ prog.subroutines, ∃ id fn, fn ∈ src.functions ∧ StandsFor src (id, fn) sub := by
    intro sub hsb
    obtain ⟨id, hid⟩ := List.mem_iff_getElem?.mp hsb
    obtain ⟨fn, hf, hst⟩ := h.exists_function hid
    exact ⟨id, fn, List.mem_of_getElem? hf, hst⟩
  refine ⟨fun sub hsb => ?_, fun name hn => ?_, fun sub hsb hb => ?_, ?_, ?_⟩
  · obtain ⟨id, fn, hmem, hst⟩ := hf sub hsb
    rw [hst.symbol_eq]
    exact hns fn hmem
  · rw [show prog.classNames = _ from h.classNames_eq] at hn
    obtain ⟨decl, hd, rfl⟩ := List.mem_map.mp hn
    exact hc decl hd
  · obtain ⟨id, fn, hmem, hst⟩ := hf sub hsb
    rw [hst.body_isSome] at hb
    have hl := hfr fn hmem hb
    simpa [Flow.Subroutine.isForeign, hst.linkage_eq] using hl
  · have hids : (src.functions.entries.map Prod.fst).Nodup := by
      rw [Table.map_fst_entries]
      exact List.nodup_range
    rw [h.defined_eq, functionsWhere]
    exact hids.sublist (List.filter_sublist.map Prod.fst)
  · intro id hid sub hsb
    obtain ⟨fn, hf, -, hp⟩ := h.mem_defined.mp hid
    obtain ⟨found, hfn, hst⟩ := h.exists_function hsb
    -- a class that listed the function would make it a method
    rw [hst.owner_eq, ownerOf, Option.map_eq_none_iff, List.find?_eq_none]
    intro decl hd hls
    have hm := hms decl (List.mem_reverse.mp hd) id (by simpa using hls) fn hf
    rw [hp] at hm
    cases hm

end TagAsm.Lower

namespace TagAsm

open Asm Abi Select

/-- With names for all functions and classes, with all that classes list marked as methods, and with no body for native functions,
no label of a unit is defined twice, and none is the symbol of a helper. No subroutine, and no initializer of a class, is emitted
twice. -/
theorem nodup_defined_selectProgram (options : Options) (colored : Bool) (source : Source.Program) (program : Flow.Program)
    (middle after : Diagnostics) (unit : AssemblyUnit)
    (hnames : ∀ function ∈ source.functions, function.symbol.name ≠ "")
    (hclasses : ∀ decl ∈ source.classes, decl.symbol.name ≠ "")
    (hmethods : ∀ decl ∈ source.classes, ∀ id ∈ decl.methods, ∀ function, source.functions[id]? = some function →
      function.isMethod = true)
    (hforeign : ∀ function ∈ source.functions, Lower.hasBody function = true → function.linkage ≠ .foreign)
    (hflow : (compileToFlow options source).start = .ok (.ok program, middle))
    (hselect : selectProgram ⟨program, options.debugInfo, colored⟩ middle = .ok (unit, after)) :
    (labels unit.text ++ labels unit.rodata).Nodup ∧ (∀ helper : Helper, helper.symbol ∉ labels unit.text ++ labels unit.rodata) ∧
      ∃ symbols parts drained last start, Selected ⟨program, options.debugInfo, colored⟩ middle symbols parts drained last ∧
        unit.text = start ++ parts.flatMap (fun part => part.2.items) ∧ (parts.map fun part => part.1.subject).Nodup := by
  obtain ⟨hrenders, -⟩ := compileToFlow_renders hflow
  have hprepared := hrenders.prepared options.debugInfo colored
  obtain ⟨symbols, parts, drained, last, hselected, rfl, rfl⟩ := selected_of_selectProgram hprepared hselect
  obtain ⟨start, hstarts⟩ := starts_of_emitStart hselected.emitStart_eq
  have htidy := hrenders.tidy hnames hclasses hmethods hforeign options.debugInfo colored
  obtain ⟨hnodup, hhelpers⟩ := hselected.nodup_defined hprepared htidy
  refine ⟨hnodup, hhelpers, symbols, parts, drained, last, start, hselected, ?_, hselected.subjects_nodup hprepared htidy⟩
  rw [toUnit_text, hstarts.text_eq, (hselected.assembled hprepared).text_eq]

/-- In the workshop all labels are different, though two functions share a name, and so do a method and an initializer. -/
theorem nodup_defined_selectProgram_workshop :
    ∃ program middle unit, (compileToFlow ⟨true, true, true⟩ workshop).start = .ok (.ok program, middle) ∧
      selectProgram ⟨program, true, false⟩ middle = .ok (unit, []) ∧
      (labels unit.text ++ labels unit.rodata).Nodup ∧
      (∀ helper : Helper, helper.symbol ∉ labels unit.text ++ labels unit.rodata) ∧
      ∃ symbols parts drained last start, Selected ⟨program, true, false⟩ middle symbols parts drained last ∧
        unit.text = start ++ parts.flatMap (fun part => part.2.items) ∧ (parts.map fun part => part.1.subject).Nodup := by
  obtain ⟨program, middle, unit, hflow, hselect⟩ := exists_selectProgram_workshop
  have hmethods : ∀ decl ∈ workshop.classes, ∀ id ∈ decl.methods, ∀ function, workshop.functions[id]? = some function →
      function.isMethod = true := by
    intro decl hdecl id hid function hfunction
    obtain rfl := List.mem_singleton.mp hdecl
    obtain rfl := List.mem_singleton.mp hid
    obtain rfl := Option.some.inj hfunction
    rfl
  exact ⟨program, middle, unit, hflow, hselect, nodup_defined_selectProgram ⟨true, true, true⟩ false workshop program middle []
    unit (by decide) (by decide) hmethods (by decide) hflow hselect⟩

end TagAsm
