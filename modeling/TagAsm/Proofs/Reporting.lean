import TagAsm.Proofs.Draining

/-!
# What selection reports

Selection reports errors of two sorts: those that are noted while code is selected, and one for each piece of work that is
refused. Where all functions have function types, the only subroutine that can be refused is an entry subroutine whose signature
does not fit, so nothing is ever missing that an earlier stage should have provided.
-/

namespace TagAsm.Select

open Asm Abi List
open TagAsm.Flow (SubroutineId Subroutine)

/-- What was reported by the time that these pieces of work were done: errors of selection, none of which says that something is
missing unless a piece of work was refused for that; and something about each that was refused. -/
structure Reported (cx : Context) (diags : Diagnostics) (done : List (Work × Outcome)) (kept : Selection) : Prop where
  added : ∃ added : Diagnostics, kept.diagnostics = diags ++ added ∧ ∀ diag ∈ added, diag.stage = .codegen ∧ diag.isError = true ∧
      (diag.kind = .missingSymbol → ∃ work refusal, (work, Outcome.refused refusal) ∈ done ∧ refusal.kind = .missingSymbol)
  refused : ∀ work refusal, (work, Outcome.refused refusal) ∈ done → ∃ diag ∈ kept.diagnostics, diag.isError = true
  settled : ∀ work out, (work, out) ∈ done →
    (∃ items, out = .emitted items) ∨ ∃ refusal, out = .refused refusal ∧ UnfitWork cx work refusal

section

variable {cx : Context} {diags : Diagnostics} {syms : SymbolTable} {done parts : List (Work × Outcome)}
  {em next drained last : Emission} {work : Work} {queue : List Work} {out : Outcome}

/-- What is reported about a piece of work as a whole says why it was refused. -/
theorem Outcome.Reports.isError {reports : Diagnostics} (h : out.Reports reports) :
    ∀ diag ∈ reports, diag.stage = .codegen ∧ diag.isError = true ∧ ∃ refusal, out = .refused refusal ∧ diag.kind = refusal.kind := by
  intro diag hd
  cases h with
  | refused refusal loc what =>
    obtain rfl := mem_singleton.mp hd
    exact ⟨rfl, rfl, refusal, rfl, rfl⟩
  | emitted items => cases hd
  | absent => cases hd

variable {refusal : Refusal}

theorem Outcome.Reports.exists_of_refused {reports : Diagnostics} (h : (Outcome.refused refusal).Reports reports) :
    ∃ diag ∈ reports, diag.isError = true := by
  cases h with
  | refused _ loc what => exact ⟨_, mem_singleton_self _, rfl⟩

theorem Reported.step (h : Reported cx diags done em.kept) (hp : cx.Prepared)
    (hkp : Bookkept cx syms (done.map Prod.fst) em.kept) (hq : em.kept.queue = work :: queue)
    (hw : Handles cx (em.waiting queue) work out next) :
    Reported cx diags (done ++ [(work, out)]) next.kept := by
  obtain ⟨kept, reports, hns, hr, hn⟩ := hw.keeps hp
  obtain ⟨before, hb, hbe⟩ := h.added
  obtain ⟨noted, hnt, hnd⟩ := hns.addsErrors
  have hds : next.kept.diagnostics = diags ++ (before ++ noted ++ reports) := by
    rw [hn]
    simp only [hnt, Emission.waiting, hb, append_assoc]
  refine ⟨⟨before ++ noted ++ reports, hds, ?_⟩, fun found refusal hf => ?_, fun found res hf => ?_⟩
  · intro diag hd
    simp only [mem_append, mem_singleton] at hd ⊢
    rcases hd with (hmem | hmem) | hmem
    · obtain ⟨hs, he, hm⟩ := hbe diag hmem
      refine ⟨hs, he, fun hk => ?_⟩
      obtain ⟨found, refusal, hf, hrf⟩ := hm hk
      exact ⟨found, refusal, Or.inl hf, hrf⟩
    · obtain ⟨hs, he, hk⟩ := hnd diag hmem
      exact ⟨hs, he, fun hm => absurd hm hk⟩
    · obtain ⟨hs, he, refusal, rfl, hk⟩ := hr.isError diag hmem
      exact ⟨hs, he, fun hm => ⟨work, refusal, Or.inr rfl, hk.symm.trans hm⟩⟩
  · rw [hds]
    rcases mem_append.mp hf with hold | hnew
    · obtain ⟨diag, hmem, he⟩ := h.refused found refusal hold
      rw [hb] at hmem
      refine ⟨diag, ?_, he⟩
      rw [append_assoc, ← append_assoc]
      exact mem_append_left _ hmem
    · obtain ⟨rfl, rfl⟩ := Prod.mk.inj (mem_singleton.mp hnew)
      obtain ⟨diag, hmem, he⟩ := hr.exists_of_refused
      exact ⟨diag, mem_append_right _ (mem_append_right _ hmem), he⟩
  · rcases mem_append.mp hf with hold | hnew
    · exact h.settled found res hold
    · obtain ⟨rfl, rfl⟩ := Prod.mk.inj (mem_singleton.mp hnew)
      exact hw.settled hp hkp.aligned (hkp.hasSubject hp hq)

/-- What is reported while a program is selected. -/
theorem Selected.reported (h : Selected cx diags syms parts drained last) (hp : cx.Prepared) : Reported cx diags parts drained.kept := by
  have hi : Reported cx diags [] (Emission.initial cx syms diags).kept := by
    refine ⟨⟨[], ?_, ?_⟩, ?_, ?_⟩
    · simp [Emission.initial]
    · simp
    · simp
    · simp
  refine (h.reaches (fun done em => Reported cx diags done em.kept) hp ?_ hi).2
  intro done em work queue out next hk hq hw hd
  exact hd.step hp hk hq hw

/-- Where all subroutines have function types, only an unfit entry is refused. -/
theorem UnfitWork.entryDefect (h : UnfitWork cx work refusal)
    (hfn : ∀ sub ∈ cx.program.subroutines, cx.program.types.signature sub.ty ≠ .ok none) :
    ∃ entry sub, work = .subroutine entry ∧ cx.program.entry = some entry ∧
      cx.program.subroutines[entry]? = some sub ∧ EntryDefect cx sub refusal := by
  obtain ⟨id, sub, rfl, hid, hu⟩ := h
  rcases hu with hn | ⟨he, hd⟩
  · cases hn with
    | intro hf hs => exact absurd hs (hfn _ (mem_of_getElem? hf))
  · exact ⟨id, sub, rfl, he, hid, hd⟩

theorem EntryDefect.kind_ne {sub : Subroutine} (h : EntryDefect cx sub refusal) : refusal.kind ≠ .missingSymbol := by
  cases h with
  | parameters _ _ => decide
  | returnType _ _ _ _ => exact DiagnosticKind.noConfusion

/-- A piece of work was emitted, or it is the entry subroutine and its signature does not fit. -/
inductive Accounted (cx : Context) : Work × Outcome → Prop where
  | emitted (work : Work) (items : List Item) : Accounted cx (work, .emitted items)
  | unfitEntry {entry : SubroutineId} {sub : Subroutine} {refusal : Refusal}
    (hentry : cx.program.entry = some entry) (hid : cx.program.subroutines[entry]? = some sub)
    (hdefect : EntryDefect cx sub refusal) : Accounted cx (.subroutine entry, .refused refusal)

end

end TagAsm.Select

namespace TagAsm

open Asm Abi Select Compilation

/-! ## Compilations that ignore errors -/

/-- What comes of a stage with a checkpoint after it. -/
def concluded {α : Type} (options : Options) (stage : Stage) (res : α) (diags : Diagnostics) :
    Except Failure α × Diagnostics :=
  if options.halts diags then (.error (.halted stage diags), []) else (.ok res, diags)

variable {colored : Bool} {options : Options} {src : Source.Program} {diags : Diagnostics}

/-- A compilation from end to end: once the program is prepared, its code is selected and written down, and the compilation can halt. -/
theorem run_compileToAssembly : (compileToAssembly colored options src).run.run diags = Lower.lowerProgram src diags >>= fun low =>
      if options.halts low.2 then .ok (.error (.halted .lowering low.2), [])
      else
        options.prepare low.1 >>= fun prog =>
          selectProgram ⟨prog, options.debugInfo, colored⟩ low.2 >>= fun selected =>
            .ok (concluded options .codegen selected.1.source selected.2) := by
  unfold compileToAssembly
  rw [run_compileToFlow_bind]
  refine bind_congr fun low => if_congr Iff.rfl rfl (bind_congr fun prog => ?_)
  rw [run_stage_bind, assemble, bind_assoc]
  refine bind_congr fun selected => ?_
  show (checkpoint options .codegen >>= fun _ => pure selected.1.source : Compilation String).run.run selected.2 = _
  rw [run_checkpoint_bind, concluded]
  split
  · rfl
  · rfl

section

variable {after : Diagnostics} {out : Except Failure String} (hi : options.ignoreErrors = true)
  (h : (compileToAssembly colored options src).run.run diags = .ok (out, after))
include hi h

/-- Errors aside, a compilation lowers and prepares a program, selects its code, and writes that down. -/
theorem prepare_of_compileToAssembly : ∃ low mid prog unit, Lower.lowerProgram src diags = .ok (low, mid) ∧
      options.prepare low = .ok prog ∧
      selectProgram ⟨prog, options.debugInfo, colored⟩ mid = .ok (unit, after) ∧ out = .ok unit.source := by
  have hp (reports : Diagnostics) : ¬options.halts reports = true := by simp [Options.halts, hi]
  rw [run_compileToAssembly] at h
  obtain ⟨⟨low, mid⟩, hl, h⟩ := of_bind_eq_ok h
  rw [if_neg (hp mid)] at h
  obtain ⟨prog, hpr, h⟩ := of_bind_eq_ok h
  obtain ⟨⟨unit, last⟩, hs, h⟩ := of_bind_eq_ok h
  rw [concluded, if_neg (hp last)] at h
  obtain ⟨rfl, rfl⟩ := ok_pair_inj h
  exact ⟨low, mid, prog, unit, hl, hpr, hs, rfl⟩

theorem selectProgram_of_compileToAssembly : ∃ prog mid unit, (compileToFlow options src).run.run diags = .ok (.ok prog, mid) ∧
      selectProgram ⟨prog, options.debugInfo, colored⟩ mid = .ok (unit, after) ∧ out = .ok unit.source := by
  obtain ⟨low, mid, prog, unit, hl, hpr, hs, ho⟩ := prepare_of_compileToAssembly hi h
  refine ⟨prog, mid, unit, ?_, hs, ho⟩
  rw [← bind_pure (compileToFlow options src), run_compileToFlow_bind, hl]
  show (if options.halts mid then _ else _) = _
  rw [if_neg (by simp [Options.halts, hi]), hpr]
  rfl

end

/-- Where all functions have function types, selection finds everything that it needs. Whatever the options, it never reports that
something is missing; and of all the work that there is, the subroutines with a body and everything that is asked for on the way,
nothing is left out but an entry subroutine that takes parameters or returns no exit code. -/
theorem compileToAssembly_lacks_nothing (colored : Bool) (options : Options) (source : Source.Program)
    (outcome : Except Failure String) (after : Diagnostics) (hignore : options.ignoreErrors = true)
    (hfunctions : ∀ function ∈ source.functions, ∃ parameters returnType,
      source.types.get function.ty = .ok (.function parameters returnType))
    (h : (compileToAssembly colored options source).start = .ok (outcome, after)) :
    (∀ diagnostic ∈ after, diagnostic.stage = .codegen → diagnostic.kind ≠ .missingSymbol) ∧ ∃ program middle symbols parts drained last,
        (compileToFlow options source).start = .ok (.ok program, middle) ∧
        Selected ⟨program, options.debugInfo, colored⟩ middle symbols parts drained last ∧
        outcome = .ok (last.toUnit options.debugInfo).source ∧ after = last.kept.diagnostics ∧
        (parts.map Prod.fst).Perm (allWork program drained.kept.symbols) ∧
        ∀ part ∈ parts, Accounted ⟨program, options.debugInfo, colored⟩ part := by
  obtain ⟨program, middle, unit, hflow, hselect, houtcome⟩ := selectProgram_of_compileToAssembly hignore h
  obtain ⟨hrenders, lowered, hlowered, hstages⟩ := compileToFlow_renders hflow
  have hprepared := hrenders.prepared options.debugInfo colored
  obtain ⟨symbols, parts, drained, last, hselected, rfl, rfl⟩ := selected_of_selectProgram hprepared hselect
  have hreported := hselected.reported hprepared
  have hsignatures : ∀ subroutine ∈ program.subroutines, program.types.signature subroutine.ty ≠ .ok none := by
    intro subroutine hsubroutine hnone
    obtain ⟨id, hid⟩ := List.mem_iff_getElem?.mp hsubroutine
    obtain ⟨function, hfunction, hstands⟩ := hrenders.exists_function hid
    obtain ⟨parameters, returnType, hty⟩ := hfunctions function (List.mem_of_getElem? hfunction)
    rw [hstands.ty_eq, hrenders.types_eq, TypeTable.signature, hty] at hnone
    cases hnone
  -- a piece of work that is refused is an unfit entry
  have hrefused : ∀ work refusal, (work, Outcome.refused refusal) ∈ parts →
      UnfitWork ⟨program, options.debugInfo, colored⟩ work refusal := by
    intro work refusal hpart
    rcases hreported.settled work _ hpart with ⟨items, hitems⟩ | ⟨found, hfound, hunfit⟩
    · cases hitems
    · exact Outcome.refused.inj hfound ▸ hunfit
  refine ⟨?_, program, middle, symbols, parts, drained, last, hflow, hselected, houtcome, rfl, hselected.perm hprepared, ?_⟩
  · intro diagnostic hdiagnostic hstage hkind
    obtain ⟨items, hstarts⟩ := starts_of_emitStart hselected.emitStart_eq
    obtain ⟨started, hstarted, hstartedErrors⟩ := hstarts.addsErrors
    obtain ⟨added, hadded, haddedErrors⟩ := hreported.added
    rw [hstarted, hadded, hlowered, List.nil_append] at hdiagnostic
    rcases List.mem_append.mp hdiagnostic with hmem | hmem
    · rcases List.mem_append.mp hmem with hmem | hmem
      · have hlower := (hstages diagnostic hmem).1
        rw [hstage] at hlower
        cases hlower
      · obtain ⟨-, -, hmissing⟩ := haddedErrors diagnostic hmem
        obtain ⟨work, refusal, hpart, hrefusal⟩ := hmissing hkind
        obtain ⟨_, subroutine, _, _, _, hdefect⟩ := (hrefused work refusal hpart).entryDefect hsignatures
        exact hdefect.kind_ne hrefusal
    · exact (hstartedErrors diagnostic hmem).2.2 hkind
  · rintro ⟨work, result⟩ hpart
    rcases hreported.settled work result hpart with ⟨items, rfl⟩ | ⟨refusal, rfl, hunfit⟩
    · exact .emitted work items
    · obtain ⟨entry, subroutine, rfl, hentry, hid, hdefect⟩ := hunfit.entryDefect hsignatures
      exact .unfitEntry hentry hid hdefect

/-- A program with all kinds of work, and with names that have to be kept apart: `main` makes a `Counter`, whose initializer refers to
a method that is called `init`; and a second function is called `main` too. -/
def workshop : Source.Program where
  files := []
  types := ⟨[.function [] 1, .dynamic, .classType 0 [], .function [2] 1]⟩
  functions := [⟨⟨"main", .unknown⟩, 0, .internal, false,
      .defined [] [] (.block .unknown [.expression .unknown (.print ⟨0, 1, .unknown⟩ [.make ⟨1, 2, .unknown⟩ 2 []])])⟩,
    ⟨⟨"init", .unknown⟩, 3, .internal, true,
      .defined [⟨0, ⟨"this", .unknown⟩, 2⟩] [] (.block .unknown [.returnValue .unknown (some (.literal ⟨0, 1, .unknown⟩ (.int 1)))])⟩,
    ⟨⟨"main", .unknown⟩, 0, .internal, false,
      .defined [] [] (.block .unknown [.expression .unknown (.call ⟨0, 1, .unknown⟩ (.functionRef ⟨1, 0, .unknown⟩ 0) [])])⟩]
  classes := [⟨⟨"Counter", .unknown⟩, 2, none, [⟨1, ⟨"count", .unknown⟩, 1⟩], [1]⟩]
  entry := some 0

/-- The workshop compiles without errors, with debug tables. -/
theorem exists_selectProgram_workshop : ∃ prog mid unit, (compileToFlow ⟨true, true, true⟩ workshop).start = .ok (.ok prog, mid) ∧
      selectProgram ⟨prog, true, false⟩ mid = .ok (unit, []) := by
  have hq : (compileToAssembly false ⟨true, true, true⟩ workshop).start.map (fun res => res.2) = .ok [] := by
    decide +kernel
  obtain ⟨⟨out, after⟩, hrun, rfl⟩ := exists_of_map_eq_ok hq
  obtain ⟨prog, mid, unit, hf, hs, -⟩ := selectProgram_of_compileToAssembly rfl hrun
  exact ⟨prog, mid, unit, hf, hs⟩

/-- With the method as its entry, all of the workshop is emitted but the method, which takes a parameter. -/
theorem compileToAssembly_lacks_nothing_workshop :
    ∃ outcome after, (compileToAssembly false ⟨true, true, true⟩ { workshop with entry := some 1 }).start = .ok (outcome, after) ∧
      after.map (·.kind) = [.wrongArgumentCount] ∧
      (∀ diagnostic ∈ after, diagnostic.stage = .codegen → diagnostic.kind ≠ .missingSymbol) ∧
      ∃ program middle symbols parts drained last,
        (compileToFlow ⟨true, true, true⟩ { workshop with entry := some 1 }).start = .ok (.ok program, middle) ∧
        Selected ⟨program, true, false⟩ middle symbols parts drained last ∧
        outcome = .ok (last.toUnit true).source ∧ after = last.kept.diagnostics ∧
        (parts.map Prod.fst).Perm (allWork program drained.kept.symbols) ∧
        ∀ part ∈ parts, Accounted ⟨program, true, false⟩ part := by
  have hkinds : (compileToAssembly false ⟨true, true, true⟩ { workshop with entry := some 1 }).start.map
      (fun result => result.2.map (·.kind)) = .ok [.wrongArgumentCount] := by decide +kernel
  obtain ⟨⟨outcome, after⟩, hrun, hafter⟩ := exists_of_map_eq_ok hkinds
  refine ⟨outcome, after, hrun, hafter, ?_⟩
  refine compileToAssembly_lacks_nothing false ⟨true, true, true⟩ { workshop with entry := some 1 } outcome after rfl ?_ hrun
  intro function hfunction
  simp only [workshop, List.mem_cons, List.not_mem_nil, or_false] at hfunction
  rcases hfunction with rfl | rfl | rfl
  · exact ⟨_, _, rfl⟩
  · exact ⟨_, _, rfl⟩
  · exact ⟨_, _, rfl⟩

end TagAsm
