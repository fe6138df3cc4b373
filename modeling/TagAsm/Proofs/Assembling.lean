import TagAsm.Proofs.Draining

/-!
# What the text is put together from

The text of a unit is what the pieces of work left, one after the other. What is said here of one piece holds of the whole: which
labels it defines, where the names that it mentions are defined, and which labels the debug tables list.
-/

namespace TagAsm.Asm

/-- The labels that debug tables list. -/
def DebugTables.names (tables : DebugTables) : List String :=
  tables.lines.map (·.label) ++ tables.infos.flatMap fun info => [info.start, info.stop]

/-- The names that a unit defines. -/
def AssemblyUnit.defined (unit : AssemblyUnit) : List String := labels unit.text ++ labels unit.rodata

end TagAsm.Asm

namespace TagAsm.Select

open Asm Abi SelectM List DebugTables
open TagAsm.Flow (SubroutineId Subroutine Body)

/-! ## Debug tables -/

theorem names_string (tables : DebugTables) (name : String) : (tables.string name).2.names = tables.names := by
  unfold string
  split
  · rfl
  · rfl

theorem names_variableEntries (places : List (Int × String × VariableRole)) (tables : DebugTables) :
    (variableEntries tables places).2.names = tables.names := by
  induction places generalizing tables with
  | nil => rfl
  | cons place rest ih =>
    exact (ih _).trans (names_string tables _)

section

variable (tables : DebugTables)

/-- A subroutine adds the labels of its lines, and of its beginning and its end. -/
theorem names_describe (name sym : String) (lines : List LineEntry) (places : List (Int × String × VariableRole))
    {label : String} (h : label ∈ (describe tables name sym lines places).names) :
    label ∈ tables.names ∨ label ∈ lines.map (·.label) ∨ label = localLabel sym "entry" ∨ label = localLabel sym "exit" := by
  have hn := (names_variableEntries places ((tables.addLines lines).string name).2).trans (names_string (tables.addLines lines) name)
  have ha : (describe tables name sym lines places).names = (variableEntries ((tables.addLines lines).string name).2 places).2.names
        ++ [localLabel sym "entry", localLabel sym "exit"] := by
    simp [describe, addInfo, names]
  rw [ha, hn] at h
  simp only [addLines, names, map_append, mem_append, mem_cons, not_mem_nil, or_false] at h ⊢
  tauto

/-- The sections for the debug tables mention what the tables list. -/
theorem codeNames_lineItems : codeNames (tables.lines.flatMap lineItems) ⊆ tables.names := by
  intro name hn
  simp only [codeNames, mem_flatMap] at hn
  obtain ⟨item, ⟨entry, he, hi⟩, hn⟩ := hn
  have hl : name = entry.label := by
    simp only [lineItems, mem_cons, not_mem_nil, or_false] at hi
    rcases hi with rfl | rfl | rfl
    · exact mem_singleton.mp hn
    · cases hn
    · cases hn
  exact mem_append_left _ (mem_map.mpr ⟨entry, he, hl.symm⟩)

theorem codeNames_infoItems : codeNames (tables.infos.flatMap infoItems) ⊆ tables.names := by
  intro name hn
  simp only [codeNames, mem_flatMap] at hn
  obtain ⟨item, ⟨entry, he, hi⟩, hn⟩ := hn
  have hl : name ∈ [entry.start, entry.stop] := by
    rcases mem_append.mp hi with hi | hi
    · simp only [mem_cons, not_mem_nil, or_false] at hi
      rcases hi with rfl | rfl | rfl | rfl
      · exact mem_cons.mpr (Or.inl (mem_singleton.mp hn))
      · exact mem_cons_of_mem _ hn
      · cases hn
      · cases hn
    · obtain ⟨place, -, hi⟩ := mem_flatMap.mp hi
      simp only [variableItems, mem_cons, not_mem_nil, or_false] at hi
      rcases hi with rfl | rfl | rfl
      · cases hn
      · cases hn
      · cases hn
  exact mem_append_right _ (mem_flatMap.mpr ⟨entry, he, hl⟩)

end

theorem codeNames_stringItems (names : List String) : codeNames (names.flatMap stringItems) = [] := by
  rw [codeNames, flatMap_assoc, flatMap_eq_nil_iff]
  intro name hn
  rfl

/-! ## One piece of work -/

section

variable {cx : Context} {syms : SymbolTable} {before after : Emission} {work : Work} {out : Outcome}

theorem phase_mem_routineLabels {role : String} (h : role ∈ phaseRoles) (sym : String) (body : Body) :
    localLabel sym role ∈ routineLabels cx sym body := by
  refine mem_cons_of_mem _ (mem_map_of_mem ?_)
  exact mem_append_left _ (mem_append_left _ h)

/-- Where code goes within a subroutine, there is a label. -/
theorem routineTargets_subset (sym : String) (body : Body) : routineTargets sym body ⊆ routineLabels cx sym body := by
  intro name hn
  rcases mem_cons.mp hn with rfl | hn
  · exact phase_mem_routineLabels (by decide) sym body
  · obtain ⟨id, hid, rfl⟩ := mem_map.mp hn
    refine mem_cons_of_mem _ (mem_map_of_mem ?_)
    exact mem_append_left _ (mem_append_right _ (mem_map_of_mem hid))

/-- The lines that the debug tables list have labels. -/
theorem lineEntries_subset (hd : cx.debugInfo = true) (sym : String) (body : Body) :
    (lineEntries sym body).map (·.label) ⊆ routineLabels cx sym body := by
  intro name hn
  obtain ⟨entry, he, rfl⟩ := mem_map.mp hn
  obtain ⟨⟨stmt, num⟩, hs, hf⟩ := mem_filterMap.mp he
  have hl : entry.label = lineLabel sym num := by
    dsimp only at hf
    unfold lineEntry? at hf
    split at hf
    · obtain ⟨file, -, rfl⟩ := Option.map_eq_some_iff.mp hf
      rfl
    · cases hf
  have hm : isMarked cx sym (stmt, num) = true := by
    simp [isMarked, hd, hf]
  rw [hl]
  refine mem_cons_of_mem _ (mem_map.mpr ⟨"line" ++ toString num, ?_, rfl⟩)
  exact mem_append_right _ (mem_map.mpr ⟨(stmt, num), mem_filter.mpr ⟨hs, hm⟩, rfl⟩)

/-- The code of a piece of work. -/
inductive Emits (cx : Context) (syms : SymbolTable) : Work → List Item → Prop where
  | subroutine {id : SubroutineId} {sub : Subroutine} {body : Body} {sym : String} {items : List Item} {frame : Frame}
    (hid : cx.program.subroutines[id]? = some sub) (hbody : sub.kind = .defined body)
    (hsymbol : syms.subroutine? id = some sym)
    (hcode : SubroutineCode cx sym body frame (decide (cx.program.entry = some id)) items)
    (hlabels : (labels items).Perm (routineLabels cx sym body)) : Emits cx syms (.subroutine id) items
  | initializer {ty : TypeId} {sym : String} {items : List Item} (hlabels : labels items = [sym]) :
    Emits cx syms (.initializer ty sym) items

/-- The symbol under which a piece of work is emitted. -/
def Work.symbol? (syms : SymbolTable) : Work → Option String
  | .subroutine id => syms.subroutine? id
  | .initializer _ symbol => some symbol

/-- What is emitted under a symbol has a label for it. -/
theorem Emits.symbol_mem {items : List Item} (h : Emits cx syms work items) {sym : String}
    (hs : work.symbol? syms = some sym) : sym ∈ labels items := by
  cases h with
  | subroutine hid hb hf hc hl =>
    cases hf.symm.trans hs
    exact hl.mem_iff.mpr mem_cons_self
  | initializer hl =>
    cases hs
    rw [hl]
    exact mem_singleton_self _

theorem Handles.emits {items : List Item} (h : Handles cx before work (.emitted items) after)
    (ha : before.kept.Aligned cx) (hss : before.kept.symbols.subroutines = syms.subroutines) :
    Emits cx syms work items := by
  cases h with
  | @subroutine id sub body name _ frame kept places hid hb hrun =>
    have hs := ha.subroutine?_eq hss hid
    exact .subroutine hid hb hs (subroutineCode_yields _ _ _ _ _ _ _ _ hrun) (subroutineCode_labels _ _ _ _ _ _ _ _ hrun)
  | initializer hc hrun => exact .initializer (initializerCode_labels _ _ _ _ _ _ hrun)

section

variable (h : Handles cx before work out after)
include h

theorem Handles.text_eq : after.text = before.text ++ out.items := by
  cases h with
  | subroutine _ _ _ => rfl
  | initializer _ _ => rfl
  | _ => exact (append_nil _).symm

theorem Handles.mem_emitted (id : SubroutineId) :
    id ∈ after.emitted ↔ id ∈ before.emitted ∨ work = .subroutine id ∧ ∃ items, out = .emitted items := by
  cases h with
  | @subroutine found _ _ _ items _ _ _ _ _ _ =>
    simp only [mem_append, mem_singleton, Work.subroutine.injEq, Outcome.emitted.injEq, exists_eq', and_true]
    rw [eq_comm]
  | _ => simp [Emission.refuse]

/-- What code mentions is known, or it is a label in the code. -/
theorem Handles.covered (hp : cx.Prepared) : ∀ name ∈ codeNames out.items, Knows cx after.kept name ∨ name ∈ labels out.items := by
  intro name hn
  cases h with
  | @subroutine id sub body _ items frame kept _ hid hb hrun =>
    have hs := hp.subroutine_selects hid hb (before.kept.symbolOf id) before.kept
    rcases (hs _ _ hrun).2.1 (items, frame) rfl name hn with hk | ht
    · exact Or.inl hk
    · have hl := subroutineCode_labels _ _ _ _ _ _ _ _ hrun
      exact Or.inr (hl.mem_iff.mpr (routineTargets_subset _ _ ht))
  | @initializer ty sym decl items kept hc hrun =>
    have hs := hp.initializer_selects hc sym before.kept
    exact Or.inl ((hs _ _ hrun).2.1 items rfl name hn)
  | _ => cases hn

/-- The debug tables list labels in the code. -/
theorem Handles.debug {label : String} (hl : label ∈ after.debug.names) : label ∈ before.debug.names ∨ label ∈ labels out.items := by
  cases h with
  | @subroutine id sub body _ items frame kept _ hid hb hrun =>
    have hls := subroutineCode_labels _ _ _ _ _ _ _ _ hrun
    by_cases hd : cx.debugInfo = true
    · simp only [hd, if_true] at hl
      rcases names_describe _ _ _ _ _ hl with hold | hln | rfl | rfl
      · exact Or.inl hold
      · exact Or.inr (hls.mem_iff.mpr (lineEntries_subset hd _ _ hln))
      · exact Or.inr (hls.mem_iff.mpr (phase_mem_routineLabels (by decide) _ _))
      · exact Or.inr (hls.mem_iff.mpr (phase_mem_routineLabels (by decide) _ _))
    · simp only [hd] at hl
      exact Or.inl hl
  | _ => exact Or.inl hl

end

/-- What is known before a piece of work is known after it. -/
theorem Handles.knows {queue : List Work} {name : String} (h : Handles cx (before.waiting queue) work out after)
    (hp : cx.Prepared) (hn : Knows cx before.kept name) :
    Knows cx after.kept name := by
  obtain ⟨kept, reports, hnt, -, hk⟩ := h.keeps hp
  have hw : Knows cx (before.waiting queue).kept name := hn.mono (Subset.refl _) (Nat.le_refl _) rfl (Subset.refl _) (Subset.refl _)
  rw [hk]
  exact (hnt.knows hw).mono (Subset.refl _) (Nat.le_refl _) rfl (Subset.refl _) (Subset.refl _)

end

/-! ## All pieces -/

/-- The text that was put together from these pieces of work. -/
structure Assembled (cx : Context) (syms : SymbolTable) (done : List (Work × Outcome)) (em : Emission) : Prop where
  text_eq : em.text = done.flatMap fun part => part.2.items
  mem_emitted : ∀ id, id ∈ em.emitted ↔ ∃ items, (Work.subroutine id, Outcome.emitted items) ∈ done
  emits : ∀ work items, (work, Outcome.emitted items) ∈ done → Emits cx syms work items
  names : ∀ name ∈ codeNames em.text, Knows cx em.kept name ∨ name ∈ labels em.text
  debug : ∀ label ∈ em.debug.names, label ∈ labels em.text

section

variable {cx : Context} {diags : Diagnostics} {syms : SymbolTable} {done parts : List (Work × Outcome)}
  {em next drained last : Emission} {work : Work} {queue : List Work} {out : Outcome}

theorem Assembled.step (h : Assembled cx syms done em) (hp : cx.Prepared) (hkp : Bookkept cx syms (done.map Prod.fst) em.kept)
    (hw : Handles cx (em.waiting queue) work out next) :
    Assembled cx syms (done ++ [(work, out)]) next := by
  have ht : next.text = em.text ++ out.items := hw.text_eq
  refine ⟨?_, fun id => ?_, fun found items hf => ?_, fun name hn => ?_, fun label hl => ?_⟩
  · rw [ht, h.text_eq]
    simp
  · rw [hw.mem_emitted id]
    change id ∈ em.emitted ∨ _ ↔ _
    rw [h.mem_emitted id]
    simp only [mem_append, mem_singleton, Prod.mk.injEq]
    constructor
    · rintro (⟨items, hi⟩ | ⟨rfl, items, rfl⟩)
      · exact ⟨items, Or.inl hi⟩
      · exact ⟨items, Or.inr ⟨rfl, rfl⟩⟩
    · rintro ⟨items, hi | ⟨rfl, rfl⟩⟩
      · exact Or.inl ⟨items, hi⟩
      · exact Or.inr ⟨rfl, items, rfl⟩
  · rcases mem_append.mp hf with hold | hnew
    · exact h.emits found items hold
    · obtain ⟨rfl, rfl⟩ := Prod.mk.inj (mem_singleton.mp hnew)
      exact hw.emits hkp.aligned hkp.subroutines_eq
  · rw [ht, labels_append, mem_append]
    rw [ht, codeNames_append] at hn
    rcases mem_append.mp hn with hold | hnew
    · rcases h.names name hold with hk | hl
      · exact Or.inl (hw.knows hp hk)
      · exact Or.inr (Or.inl hl)
    · rcases hw.covered hp name hnew with hk | hl
      · exact Or.inl hk
      · exact Or.inr (Or.inr hl)
  · rw [ht, labels_append, mem_append]
    rcases hw.debug hl with hold | hnew
    · exact Or.inl (h.debug label hold)
    · exact Or.inr hnew

/-- The text of a program that was selected, before the start of the process is put in front. -/
theorem Selected.assembled (h : Selected cx diags syms parts drained last) (hp : cx.Prepared) : Assembled cx syms parts drained := by
  have hi : Assembled cx syms [] (Emission.initial cx syms diags) := by
    constructor
    all_goals simp [Emission.initial, names, empty]
  refine (h.reaches (Assembled cx syms) hp ?_ hi).2
  intro done em work queue out next hk _ hw hd
  exact hd.step hp hk hw

end

/-! ## The start of the process -/

section

variable {cx : Context} {before after : Emission} {items : List Item}

/-- The code that starts the process mentions a helper and the entry subroutine. -/
theorem startCode_names (sym : String) : Yields (startCode sym) (fun items => codeNames items ⊆ [Helper.makeNone.symbol, sym]) := by
  refine .bind (callHelper_yields _ _ _) fun make hm => .pure ?_
  subst hm
  intro name hn
  rw [codeNames_append, codeNames_append] at hn
  rcases mem_append.mp hn with hn | hn
  · rcases mem_append.mp hn with hn | hn
    · cases hn
    · exact mem_cons.mpr (Or.inl (mem_singleton.mp (names_callCode _ _ _ hn)))
  · exact mem_cons_of_mem _ (names_callCode _ _ _ hn)

variable (h : Starts cx before items after)
include h

theorem Starts.text_eq : after.text = items ++ before.text := by
  cases h with
  | started _ _ _ => rfl
  | _ => rfl

theorem Starts.debug_eq : after.debug = before.debug := by
  cases h with
  | _ => rfl

/-- No more symbols are handed out, and what was defined elsewhere still is. -/
theorem Starts.symbols_eq : after.kept.symbols = before.kept.symbols ∧ before.kept.externs ⊆ after.kept.externs := by
  cases h with
  | @started entry _ kept hen he hrun =>
    obtain ⟨-, rfl⟩ := startCode_keeps hrun
    exact ⟨rfl, fun name hn => mem_insertNew_of_mem _ hn⟩
  | _ => exact ⟨rfl, Subset.refl _⟩

/-- The code that starts the process defines one label, if there is any. -/
theorem Starts.labels : labels items = [] ∨ labels items = [startSymbol] := by
  cases h with
  | started _ _ hrun => exact Or.inr (startCode_labels _ _ _ _ hrun)
  | _ => exact Or.inl rfl

/-- It mentions a symbol that is defined elsewhere, and that of the entry subroutine, which was emitted. -/
theorem Starts.names {name : String} (hn : name ∈ codeNames items) :
    name ∈ after.kept.externs ∨ ∃ entry ∈ before.emitted, name = before.kept.symbolOf entry := by
  cases h with
  | @started entry _ kept hen he hrun =>
    have hmem := startCode_names _ _ _ _ hrun hn
    obtain ⟨-, rfl⟩ := startCode_keeps hrun
    simp only [mem_cons, not_mem_nil, or_false] at hmem
    rcases hmem with rfl | rfl
    · exact Or.inl (mem_insertNew_self _ _)
    · exact Or.inr ⟨entry, he, rfl⟩
  | _ => cases hn

end

/-! ## Units -/

section

variable (em : Emission) (debug : Bool)

@[simp] theorem toUnit_text : (em.toUnit debug).text = em.text := by
  cases debug <;> rfl

@[simp] theorem toUnit_externs : (em.toUnit debug).externs = em.kept.externs := by
  cases debug <;> rfl

theorem toUnit_rodata : (em.toUnit debug).rodata = em.kept.symbols.stringEntries.flatMap fun entry =>
    [Item.label entry.2, .data (.ascii entry.1)] := by
  cases debug <;> rfl

theorem labels_toUnit_rodata : labels (em.toUnit debug).rodata = (range em.kept.symbols.strings.length).map SymbolTable.stringName := by
  have hids : em.kept.symbols.strings.entries.map Prod.fst = range em.kept.symbols.strings.length := Table.map_fst_entries _
  rw [toUnit_rodata, ← hids, SymbolTable.stringEntries, labels, filterMap_flatMap, flatMap_map, map_map]
  exact flatMap_pure_eq_map ..

theorem codeNames_toUnit_rodata : codeNames (em.toUnit debug).rodata = [] := by
  rw [toUnit_rodata, codeNames, flatMap_assoc, flatMap_eq_nil_iff]
  intro entry he
  rfl

/-- The sections for the debug tables mention what the tables list. -/
theorem codeNames_toUnit_debug : codeNames (em.toUnit debug).line ++ codeNames (em.toUnit debug).info
    ++ codeNames (em.toUnit debug).strings ⊆ em.debug.names := by
  cases debug with
  | false => exact nil_subset _
  | true =>
    rw [append_subset, append_subset]
    refine ⟨⟨codeNames_lineItems em.debug, codeNames_infoItems em.debug⟩, ?_⟩
    exact (codeNames_stringItems _).symm ▸ nil_subset _

end

end TagAsm.Select
