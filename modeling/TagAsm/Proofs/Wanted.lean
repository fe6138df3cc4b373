import TagAsm.Proofs.Reporting
import TagAsm.Proofs.Tasks

/-!
# What there is to do

The subroutines with a body ask for other work, and so does that work. As the effect of a piece of work does not depend on when it
is done, the work that is done in the end is what is asked for, directly or not (`Wanted`), and what is reported is what is reported
about each piece of it. So two arrangements of a program lead to the same reports, unless both give up a subroutine.
-/

namespace TagAsm.Select

open Asm Abi List
open TagAsm.Flow (SubroutineId Subroutine)

/-! ## All that is wanted -/

/-- The subroutines with a body, methods apart, and all that they ask for, directly or not. -/
inductive Wanted (cx : Context) (names : Table String) : Task → Prop where
  | defined {id : SubroutineId} (h : id ∈ cx.program.defined) : Wanted cx names (.subroutine id)
  | asked {asker task : Task} (hasker : Wanted cx names asker) (h : task ∈ (taskEffect cx names asker).tasks) : Wanted cx names task

/-- What the pieces of work are about that were done. -/
def tasksOf (parts : List (Work × Outcome)) : List Task := parts.map fun part => part.1.task

theorem map_task_allWork (prog : Flow.Program) (kept : Selection) :
    (allWork prog kept.symbols).map Work.task = prog.defined.map Task.subroutine ++ kept.asked := by
  simp [allWork, askedFor, Selection.asked, Work.task, Function.comp_def]

/-- The pieces of work that were done had their effects, and all of them are wanted. -/
structure Tracked (cx : Context) (names : Table String) (first : Selection) (done : List (Work × Outcome))
    (kept : Selection) : Prop where
  takes : (Effect.all (taskEffect cx names) (tasksOf done)).Takes first kept
  wanted : ∀ task ∈ tasksOf done, Wanted cx names task

section

variable {cx : Context} {diags : Diagnostics} {syms : SymbolTable} {parts : List (Work × Outcome)}
  {drained last : Emission}

theorem Selection.InOrder.nodup_asked {first : List String} {kept : Selection} (h : kept.InOrder cx first) : kept.asked.Nodup := by
  refine nodup_append'.mpr ⟨?_, ?_, ?_⟩
  · exact h.methods_nodup.map fun _ _ heq => Task.subroutine.inj heq
  · have hn := h.types_nodup.map fun _ _ heq => Task.initializer.inj heq
    rwa [map_map] at hn
  · intro task hm hi
    obtain ⟨id, -, rfl⟩ := mem_map.mp hm
    obtain ⟨entry, -, heq⟩ := mem_map.mp hi
    cases heq

variable (h : Selected cx diags syms parts drained last)
include h

/-- In the beginning nothing was asked for. -/
theorem Selected.asked_initial : (Emission.initial cx syms diags).kept.asked = [] := by
  obtain ⟨-, -, hi, hm⟩ := named_ofProgram h.symbols_eq
  simp [Selection.asked, Emission.initial, hi, hm]

theorem Selected.perm_tasksOf (hpr : cx.Prepared) :
    (tasksOf parts).Perm (cx.program.defined.map Task.subroutine ++ drained.kept.asked) := by
  have hp := (h.perm hpr).map Work.task
  rwa [map_task_allWork, map_map] at hp

end

section

variable {cx : Context} {others : Table Subroutine} {diags : Diagnostics} {syms : SymbolTable}
  {parts : List (Work × Outcome)} {drained last : Emission}

/-- One piece of work more. It waited, so something wanted asked for it. -/
theorem Tracked.step (ha : AllAkin cx.program.subroutines others) (hp : (cx.withSubs others).Prepared)
    {first : Selection} (hf : first.asked = []) {done : List (Work × Outcome)} {em next : Emission} {work : Work}
    {queue : List Work} {out : Outcome} (h : Tracked cx syms.subroutines first done em.kept)
    (hk : Bookkept (cx.withSubs others) syms (done.map Prod.fst) em.kept)
    (hq : em.kept.queue = work :: queue)
    (hwr : Handles (cx.withSubs others) (em.waiting queue) work out next)
    (hwh : Wanted cx syms.subroutines work.task → work.task.Whole cx.program) :
    Tracked cx syms.subroutines first (done ++ [(work, out)]) next.kept := by
  have ht : tasksOf (done ++ [(work, out)]) = tasksOf done ++ [work.task] := map_append
  have hw : Wanted cx syms.subroutines work.task := by
    have hmem : work.task ∈ cx.program.defined.map Task.subroutine ++ em.kept.asked := by
      rw [← map_task_allWork]
      refine mem_map_of_mem (hk.perm.mem_iff.mp ?_)
      rw [hq]
      exact mem_append_right _ mem_cons_self
    rcases mem_append.mp hmem with hd | hak
    · obtain ⟨id, hid, heq⟩ := mem_map.mp hd
      rw [← heq]
      exact .defined hid
    · rw [h.takes.asked, hf] at hak
      obtain ⟨asker, har, hts⟩ := mem_flatMap.mp (hak.resolve_left not_mem_nil)
      exact .asked (h.wanted asker har) hts
  have hal : (em.waiting queue).kept.Aligned (cx.withSubs others) := hk.aligned
  have hs := hwr.takes ha hp (hwh hw) (hk.hasSubject hp hq) hal
  have hsb : (em.waiting queue).kept.symbols.subroutines = syms.subroutines := hk.subroutines_eq
  rw [hsb] at hs
  have hm : Effect.all (taskEffect cx syms.subroutines) [work.task] = taskEffect cx syms.subroutines work.task := by
    simp [Effect.all]
  constructor
  · rw [ht, Effect.all_append, hm]
    exact h.takes.trans ⟨hs.subroutines_eq, hs.asked, hs.errors⟩
  · rw [ht]
    exact forall_mem_append.mpr ⟨h.wanted, forall_mem_singleton.mpr hw⟩

variable (h : Selected (cx.withSubs others) diags syms parts drained last)
include h

/-- All work that was done was wanted, and had its effect. -/
theorem Selected.tracked (ha : AllAkin cx.program.subroutines others) (hp : (cx.withSubs others).Prepared)
    (hw : ∀ task ∈ tasksOf parts, Wanted cx syms.subroutines task → task.Whole cx.program) :
    Tracked cx syms.subroutines (Emission.initial (cx.withSubs others) syms diags).kept parts drained.kept := by
  -- that the work is whole is known for all of it, so it is carried along as a premise
  refine (h.reaches (fun done em =>
    (∀ task ∈ tasksOf done, Wanted cx syms.subroutines task → task.Whole cx.program) →
      Tracked cx syms.subroutines (Emission.initial (cx.withSubs others) syms diags).kept done em.kept) hp ?_ ?_).2 hw
  · intro done em work queue out next hk hq hwr hd hall
    have ht : tasksOf (done ++ [(work, out)]) = tasksOf done ++ [work.task] := map_append
    rw [ht] at hall
    obtain ⟨hb, hnow⟩ := forall_mem_append.mp hall
    exact (hd hb).step ha hp h.asked_initial hk hq hwr (hnow _ mem_cons_self)
  · exact fun _ => ⟨.refl _, forall_mem_nil _⟩

/-- What was asked for is what the work that was done asks for. -/
theorem Selected.mem_asked (ht : Tracked cx syms.subroutines (Emission.initial (cx.withSubs others) syms diags).kept parts
      drained.kept) (task : Task) :
    task ∈ drained.kept.asked ↔ ∃ asker ∈ tasksOf parts, task ∈ (taskEffect cx syms.subroutines asker).tasks := by
  rw [ht.takes.asked, h.asked_initial, or_iff_right not_mem_nil]
  exact mem_flatMap

/-- Exactly what is wanted was done. -/
theorem Selected.mem_tasksOf (hpr : (cx.withSubs others).Prepared)
    (htr : Tracked cx syms.subroutines (Emission.initial (cx.withSubs others) syms diags).kept parts
      drained.kept) (task : Task) : task ∈ tasksOf parts ↔ Wanted cx syms.subroutines task := by
  refine ⟨htr.wanted task, fun ht => ?_⟩
  have hp := h.perm_tasksOf hpr
  induction ht with
  | defined hid => exact hp.mem_iff.mpr (mem_append_left _ (mem_map_of_mem hid))
  | @asked asker task _ ht ih =>
    exact hp.mem_iff.mpr (mem_append_right _ ((h.mem_asked htr task).mpr ⟨asker, ih, ht⟩))

end

/-! ## The start of the process -/

/-- What is reported when the process is to start at a subroutine without a body. -/
def startErrors (prog : Flow.Program) : Diagnostics :=
  match prog.entry.bind fun entry => prog.subroutines[entry]? with
  | some sub =>
    if sub.body?.isNone then
      [.error .codegen .missingEntry sub.symbol.location ("entry subroutine `" ++ sub.symbol.name ++ "` has no body")]
    else []
  | none => []

theorem startErrors_withSubroutines {prog : Flow.Program} {others : Table Subroutine} (h : AllAkin prog.subroutines others) :
    startErrors (withSubs prog others) = startErrors prog := by
  have he : (withSubs prog others).entry = prog.entry := rfl
  unfold startErrors
  rw [he]
  cases prog.entry with
  | none => rfl
  | some entry =>
    have hf : Option.Rel Akin prog.subroutines[entry]? (withSubs prog others).subroutines[entry]? := h.getElem? entry
    simp only [Option.bind_some]
    generalize prog.subroutines[entry]? = found at hf ⊢
    generalize (withSubs prog others).subroutines[entry]? = found' at hf ⊢
    cases hf with
    | none => rfl
    | @some sub other ha =>
      dsimp only
      rw [← Option.not_isSome, ← Option.not_isSome, ha.isSome_body?, ha.symbol_eq]

variable {diags : Diagnostics}

/-- What was emitted has a body. So nothing is reported but that the entry subroutine has none. -/
theorem Selected.diagnostics_eq {cx : Context} {syms : SymbolTable} {parts : List (Work × Outcome)}
    {drained last : Emission} (h : Selected cx diags syms parts drained last) (hp : cx.Prepared) :
    last.kept.diagnostics = drained.kept.diagnostics ++ startErrors cx.program := by
  have ham := h.assembled hp
  obtain ⟨items, hs⟩ := starts_of_emitStart h.emitStart_eq
  unfold startErrors
  cases hs with
  | entryless he => simp [he]
  | started he hem hrun =>
    obtain ⟨-, rfl⟩ := startCode_keeps hrun
    obtain ⟨items, hi⟩ := (ham.mem_emitted _).mp hem
    cases ham.emits _ _ hi with
    | subroutine hid hb => simp [he, hid, Subroutine.body?, hb]
  | nameless he hem =>
    obtain ⟨items, hi⟩ := (ham.mem_emitted _).mp hem
    cases ham.emits _ _ hi with
    | subroutine hid hb => simp [he, hid, Subroutine.body?, hb]
  | bodiless he hem hid hb => simp [he, hid, hb, Emission.refuse]
  | leftOut he hem hid hb => simp [he, hid, Option.isSome_iff_ne_none.mp hb]
  | unknown he hem hid => simp [he, hid]

/-! ## Whatever the arrangement -/

theorem hasErrors_of_mem {diag : Diagnostic} (hmem : diag ∈ diags) (he : diag.isError = true) : diags.hasErrors = true :=
  decide_eq_true (countP_pos_iff.mpr ⟨diag, hmem, he⟩)

theorem hasErrors_eq_of_perm {diagnostics' : Diagnostics} (h : diags.Perm diagnostics') : diags.hasErrors = diagnostics'.hasErrors := by
  unfold Diagnostics.hasErrors Diagnostics.errorCount
  rw [h.countP_eq]

section

variable {cx : Context} {others others' : Table Subroutine} {diags : Diagnostics} {syms symbols' : SymbolTable}
  {parts parts' : List (Work × Outcome)} {drained drained' last last' : Emission}

section

variable (ha : AllAkin cx.program.subroutines others) (ha' : AllAkin cx.program.subroutines others')
include ha ha'

/-- The symbols do not depend on the arrangement. -/
theorem Selected.symbols_unique (h : Selected (cx.withSubs others) diags syms parts drained last)
    (h' : Selected (cx.withSubs others') diags symbols' parts' drained' last') : symbols' = syms := by
  have hf : SymbolTable.ofProgram cx.program (Helper.all.map Helper.symbol) = .ok syms := (ofProgram_eq ha _).symm.trans h.symbols_eq
  have hs : SymbolTable.ofProgram cx.program (Helper.all.map Helper.symbol) = .ok symbols' :=
    (ofProgram_eq ha' _).symm.trans h'.symbols_eq
  exact Except.ok.inj (hs.symm.trans hf)

/-- If one arrangement gives nothing up, then the other one does the same work, and reports the same about it. -/
theorem Selected.perm_diagnostics (hp : (cx.withSubs others).Prepared) (hp' : (cx.withSubs others').Prepared)
    (h : Selected (cx.withSubs others) diags syms parts drained last)
    (h' : Selected (cx.withSubs others') diags symbols' parts' drained' last')
    (hw : ∀ task ∈ tasksOf parts, task.Whole cx.program) : last.kept.diagnostics.Perm last'.kept.diagnostics := by
  obtain rfl := h.symbols_unique ha ha' h'
  have ht := h.tracked ha hp fun task hts _ => hw task hts
  have ht' := h'.tracked ha' hp' fun task _ hwn => hw task ((h.mem_tasksOf hp ht task).mpr hwn)
  have hak : drained.kept.asked.Perm drained'.kept.asked := by
    rw [perm_ext_iff_of_nodup (h.bookkept hp).inOrder.nodup_asked (h'.bookkept hp').inOrder.nodup_asked]
    intro task
    simp only [h.mem_asked ht, h'.mem_asked ht', h.mem_tasksOf hp ht, h'.mem_tasksOf hp' ht']
  have htss : (tasksOf parts).Perm (tasksOf parts') := (h.perm_tasksOf hp).trans ((hak.append_left _).trans (h'.perm_tasksOf hp').symm)
  obtain ⟨added, had, hpr⟩ := ht.takes.errors
  obtain ⟨added', had', hpr'⟩ := ht'.takes.errors
  have hs : startErrors (cx.withSubs others).program = startErrors (cx.withSubs others').program :=
    (startErrors_withSubroutines ha).trans (startErrors_withSubroutines ha').symm
  rw [h.diagnostics_eq hp, h'.diagnostics_eq hp', had, had', hs]
  exact ((hpr.trans ((htss.flatMap_right _).trans hpr'.symm)).append_left _).append_right _

end

/-- Work that is not whole is given up, and that is reported. -/
theorem Selected.hasErrors_of_not_whole (h : Selected (cx.withSubs others) diags syms parts drained last)
    (ha : AllAkin cx.program.subroutines others) (hpr : (cx.withSubs others).Prepared) {task : Task}
    (ht : task ∈ tasksOf parts) (hnot : ¬task.Whole cx.program) :
    last.kept.diagnostics.hasErrors = true := by
  have hw : ∀ part ∈ parts, ∀ items, part.2 = .emitted items → part.1.task.Whole cx.program := by
    refine (h.reaches (fun done _ => ∀ part ∈ done, ∀ items, part.2 = .emitted items →
      part.1.task.Whole cx.program) hpr ?_ (forall_mem_nil _)).2
    intro done em work queue out next _ _ hwr hd
    refine forall_mem_append.mpr ⟨hd, forall_mem_singleton.mpr fun items hi => ?_⟩
    subst hi
    exact hwr.whole ha
  obtain ⟨⟨work, out⟩, hp, rfl⟩ := mem_map.mp ht
  have hr := h.reported hpr
  rcases hr.settled work out hp with ⟨items, rfl⟩ | ⟨refusal, rfl, -⟩
  · exact absurd (hw _ hp items rfl) hnot
  · obtain ⟨diag, hmem, he⟩ := hr.refused work refusal hp
    refine hasErrors_of_mem ?_ he
    rw [h.diagnostics_eq hpr]
    exact mem_append_left _ hmem

/-- Either nothing is given up, or errors are reported in both arrangements. -/
theorem Selected.hasErrors_eq (ha : AllAkin cx.program.subroutines others)
    (ha' : AllAkin cx.program.subroutines others') (hp : (cx.withSubs others).Prepared)
    (hp' : (cx.withSubs others').Prepared)
    (h : Selected (cx.withSubs others) diags syms parts drained last)
    (h' : Selected (cx.withSubs others') diags symbols' parts' drained' last') :
    last.kept.diagnostics.hasErrors = last'.kept.diagnostics.hasErrors := by
  by_cases hw : ∀ task ∈ tasksOf parts, task.Whole cx.program
  · exact hasErrors_eq_of_perm (h.perm_diagnostics ha ha' hp hp' h' hw)
  · by_cases hw' : ∀ task ∈ tasksOf parts', task.Whole cx.program
    · exact (hasErrors_eq_of_perm (h'.perm_diagnostics ha' ha hp' hp h hw')).symm
    · push Not at hw hw'
      obtain ⟨task, ht, hnot⟩ := hw
      obtain ⟨task', ht', hnot'⟩ := hw'
      rw [h.hasErrors_of_not_whole ha hp ht hnot, h'.hasErrors_of_not_whole ha' hp' ht' hnot']

end

end TagAsm.Select
