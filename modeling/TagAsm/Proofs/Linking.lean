import TagAsm.Proofs.Assembling
import TagAsm.Proofs.Reporting

/-!
# Units that can be linked

Methods and initializers are emitted only once something refers to them, and what they refer to is found out only then. Still,
when the queue is empty, every name that a unit mentions is defined in it or was noted as defined elsewhere, unless something was
refused.
-/

namespace TagAsm.Asm.AssemblyUnit

/-- The names that a unit mentions: targets and addresses in the code, and addresses in the data. -/
def mentioned (unit : AssemblyUnit) : List String := unit.sections.flatMap fun entry => codeNames entry.2

/-- What a unit mentions it defines, unless it says that others do. -/
def LinkClosed (unit : AssemblyUnit) : Prop := ∀ name ∈ unit.mentioned, name ∈ unit.defined ∨ name ∈ unit.externs

end TagAsm.Asm.AssemblyUnit

namespace TagAsm.Select

open Asm Abi List
open TagAsm.Flow (SubroutineId Subroutine)

/-- What has a body is emitted in any case, or belongs to a class. -/
def Context.Listed (cx : Context) : Prop :=
  ∀ (id : SubroutineId) (sub : Subroutine), cx.program.subroutines[id]? = some sub →
    sub.body?.isSome = true → sub.owner = none → id ∈ cx.program.defined

section

variable {cx : Context} {diags : Diagnostics} {syms : SymbolTable} {parts : List (Work × Outcome)}
  {drained last : Emission}

theorem isError_eq_false_of_hasErrors {diags : Diagnostics} (h : diags.hasErrors = false) : ∀ diag ∈ diags, diag.isError = false := by
  intro diag hmem
  have hc : diags.errorCount = 0 := by simpa [Diagnostics.hasErrors] using h
  simpa using countP_eq_zero.mp hc diag hmem

/-- Without errors, nothing was refused. -/
theorem Selected.exists_emitted (h : Selected cx diags syms parts drained last) (hprepared : cx.Prepared)
    (herrors : last.kept.diagnostics.hasErrors = false) {work : Work}
    (hw : work ∈ allWork cx.program drained.kept.symbols) :
    ∃ items, (work, Outcome.emitted items) ∈ parts := by
  rw [← (h.perm hprepared).mem_iff] at hw
  obtain ⟨⟨found, out⟩, hp, rfl⟩ := mem_map.mp hw
  have hr := h.reported hprepared
  rcases hr.settled found out hp with ⟨items, rfl⟩ | ⟨refusal, rfl, -⟩
  · exact ⟨items, hp⟩
  · obtain ⟨diag, hmem, he⟩ := hr.refused found refusal hp
    obtain ⟨items, hs⟩ := starts_of_emitStart h.emitStart_eq
    obtain ⟨added, ha, -⟩ := hs.addsErrors
    have hn := isError_eq_false_of_hasErrors herrors diag (ha ▸ mem_append_left _ hmem)
    rw [hn] at he
    cases he

/-- What is emitted is defined in the text. -/
theorem Assembled.symbol_mem (h : Assembled cx syms parts drained) {work : Work} {items : List Item} {sym : String}
    (hp : (work, Outcome.emitted items) ∈ parts) (hs : work.symbol? syms = some sym) : sym ∈ labels drained.text := by
  have hmem := (h.emits work items hp).symbol_mem hs
  rw [mem_labels] at hmem ⊢
  rw [h.text_eq]
  exact mem_flatMap.mpr ⟨(work, .emitted items), hp, hmem⟩

variable (h : Selected cx diags syms parts drained last)
include h

/-- What is known is defined in the end, if nothing was refused. -/
theorem Selected.defines (hprepared : cx.Prepared) (hlisted : cx.Listed)
    (herrors : last.kept.diagnostics.hasErrors = false) {name : String} (hn : Knows cx drained.kept name) :
    name ∈ labels drained.text ∨ name ∈ drained.kept.externs ∨
      ∃ id < drained.kept.symbols.strings.length, name = SymbolTable.stringName id := by
  have ha := h.assembled hprepared
  cases hn with
  | elsewhere he => exact Or.inr (Or.inl he)
  | @string id hid => exact Or.inr (Or.inr ⟨id, hid, rfl⟩)
  | @subroutine id sub _ hid hb hs hm =>
    have hw : id ∈ cx.program.defined ∨ id ∈ drained.kept.symbols.methods := by
      cases ho : sub.owner with
      | none => exact Or.inl (hlisted id sub hid hb ho)
      | some owner => exact Or.inr (hm (by rw [ho]; rfl))
    obtain ⟨items, hp⟩ := h.exists_emitted hprepared herrors (mem_allWork.mpr (Or.inl ⟨id, rfl, hw⟩))
    refine Or.inl (ha.symbol_mem hp ?_)
    rwa [Work.symbol?, SymbolTable.subroutine?, ← (h.bookkept hprepared).subroutines_eq]
  | @initializer ty _ hi =>
    obtain ⟨items, hp⟩ := h.exists_emitted hprepared herrors (mem_allWork.mpr (Or.inr ⟨ty, name, rfl, hi⟩))
    exact Or.inl (ha.symbol_mem hp rfl)

/-- The labels of the drained text are defined in the unit. -/
theorem Selected.mem_defined {name : String} (hn : name ∈ labels drained.text) : name ∈ (last.toUnit cx.debugInfo).defined := by
  obtain ⟨start, hs⟩ := starts_of_emitStart h.emitStart_eq
  refine mem_append_left _ ?_
  rw [toUnit_text, hs.text_eq, labels_append]
  exact mem_append_right _ hn

variable (hprepared : cx.Prepared) (hlisted : cx.Listed) (herrors : last.kept.diagnostics.hasErrors = false)
include hprepared hlisted herrors

/-- What is known when the queue is empty is defined in the unit, or elsewhere. -/
theorem Selected.mem_defined_or_externs {name : String} (hn : Knows cx drained.kept name) :
    name ∈ (last.toUnit cx.debugInfo).defined ∨ name ∈ (last.toUnit cx.debugInfo).externs := by
  obtain ⟨start, hs⟩ := starts_of_emitStart h.emitStart_eq
  obtain ⟨hsy, hex⟩ := hs.symbols_eq
  rcases h.defines hprepared hlisted herrors hn with hl | he | ⟨id, hid, rfl⟩
  · exact Or.inl (h.mem_defined hl)
  · refine Or.inr ?_
    rw [toUnit_externs]
    exact hex he
  · refine Or.inl (mem_append_right _ ?_)
    rw [labels_toUnit_rodata, hsy]
    exact mem_map_of_mem (mem_range.mpr hid)

/-- The unit of a program for which nothing was refused can be linked. -/
theorem Selected.linkClosed : (last.toUnit cx.debugInfo).LinkClosed := by
  have ha := h.assembled hprepared
  obtain ⟨start, hs⟩ := starts_of_emitStart h.emitStart_eq
  intro name hn
  simp only [AssemblyUnit.mentioned, AssemblyUnit.sections, flatMap_cons, flatMap_nil, append_nil,
    codeNames_toUnit_rodata, nil_append, toUnit_text, hs.text_eq, codeNames_append] at hn
  rcases mem_append.mp hn with hc | hd
  · rcases mem_append.mp hc with hst | hc
    · rcases hs.names hst with hel | ⟨entry, he, rfl⟩
      · refine Or.inr ?_
        rwa [toUnit_externs]
      · -- the entry was emitted, so its symbol is a label
        obtain ⟨items, hp⟩ := (ha.mem_emitted entry).mp he
        refine Or.inl (h.mem_defined (ha.symbol_mem hp ?_))
        cases ha.emits _ items hp with
        | subroutine hid hb hsy hc hls =>
          have hk := h.bookkept hprepared
          exact hk.aligned.subroutine?_eq hk.subroutines_eq hid
    · rcases ha.names name hc with hkn | hl
      · exact h.mem_defined_or_externs hprepared hlisted herrors hkn
      · exact Or.inl (h.mem_defined hl)
  · have ht := codeNames_toUnit_debug last cx.debugInfo (by simpa using hd)
    rw [hs.debug_eq] at ht
    exact Or.inl (h.mem_defined (ha.debug name ht))

end

end TagAsm.Select

namespace TagAsm

open Asm Abi Select

/-- A program in which every method is listed by a class compiles to a unit that can be linked, unless errors were reported. To
drain the queue takes no more steps than `workBound` says, however often code asks for methods and initializers: with more fuel
nothing changes. -/
theorem linkClosed_selectProgram (options : Options) (colored : Bool) (source : Source.Program) (program : Flow.Program)
    (middle after : Diagnostics) (unit : AssemblyUnit)
    (hmethods : ∀ (id : Source.FunctionId) (function : Source.Function), source.functions[id]? = some function →
      function.isMethod = true → ∃ decl ∈ source.classes, id ∈ decl.methods)
    (hflow : (compileToFlow options source).start = .ok (.ok program, middle))
    (hselect : selectProgram ⟨program, options.debugInfo, colored⟩ middle = .ok (unit, after)) :
    (∃ symbols drained, SymbolTable.ofProgram program (Helper.all.map Helper.symbol) = .ok symbols ∧
      drained.kept.queue = [] ∧ ∀ fuel ≥ workBound program, drain ⟨program, options.debugInfo, colored⟩ fuel
          (.initial ⟨program, options.debugInfo, colored⟩ symbols middle) = .ok drained) ∧
      (after.hasErrors = false → unit.LinkClosed) := by
  obtain ⟨hrenders, -⟩ := compileToFlow_renders hflow
  have hprepared := hrenders.prepared options.debugInfo colored
  obtain ⟨symbols, parts, drained, last, hselected, rfl, rfl⟩ := selected_of_selectProgram hprepared hselect
  have hempty := hselected.parts_drained.queue_eq_nil
  refine ⟨⟨symbols, drained, hselected.symbols_eq, hempty, fun fuel hfuel => ?_⟩, fun herrors => ?_⟩
  · exact drain_of_le hfuel hselected.drain_eq hempty
  · refine hselected.linkClosed hprepared (fun id subroutine hid hbody howner => ?_) herrors
    obtain ⟨function, hfunction, hstands⟩ := hrenders.exists_function hid
    rw [hstands.body_isSome] at hbody
    refine hrenders.mem_defined.mpr ⟨function, hfunction, hbody, ?_⟩
    -- a method has an owner
    by_contra hmethod
    obtain ⟨decl, hdecl, hlisted⟩ := hmethods id function hfunction (by simpa using hmethod)
    rw [hstands.owner_eq, Lower.ownerOf, Option.map_eq_none_iff, List.find?_eq_none] at howner
    exact howner decl (List.mem_reverse.mpr hdecl) (by simpa using hlisted)

/-- The workshop, with its initializer, its method and its debug tables, can be linked. -/
theorem linkClosed_selectProgram_workshop :
    ∃ program middle unit, (compileToFlow ⟨true, true, true⟩ workshop).start = .ok (.ok program, middle) ∧
      selectProgram ⟨program, true, false⟩ middle = .ok (unit, []) ∧
      (∃ symbols drained, SymbolTable.ofProgram program (Helper.all.map Helper.symbol) = .ok symbols ∧
        drained.kept.queue = [] ∧ ∀ fuel ≥ workBound program,
          drain ⟨program, true, false⟩ fuel (.initial ⟨program, true, false⟩ symbols middle) = .ok drained) ∧
      unit.LinkClosed := by
  obtain ⟨program, middle, unit, hflow, hselect⟩ := exists_selectProgram_workshop
  have hmethods : ∀ (id : Source.FunctionId) (function : Source.Function), workshop.functions[id]? = some function →
      function.isMethod = true → ∃ decl ∈ workshop.classes, id ∈ decl.methods := by
    intro id function hfunction hmethod
    match id with
    | 0 | 2 =>
      obtain rfl := Option.some.inj hfunction
      cases hmethod
    | 1 => exact ⟨_, List.mem_singleton_self _, List.mem_singleton_self _⟩
    | _ + 3 => cases hfunction
  obtain ⟨hdrain, hlink⟩ := linkClosed_selectProgram ⟨true, true, true⟩ false workshop program middle [] unit hmethods hflow hselect
  exact ⟨program, middle, unit, hflow, hselect, hdrain, hlink rfl⟩

end TagAsm
