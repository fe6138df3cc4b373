import TagAsm.Proofs.Optimizing

/-!
# Halting

A compilation that halts at errors reports what it would have reported by then, had it gone on. Lowering and selection add errors of
their own stage at the end of the list, and merging adds none. So the errors of lowering stand in front, and they alone decide whether
selection is reached.
-/

namespace TagAsm

open List

namespace Diagnostics

/-- Among errors there is one unless there are none. -/
theorem hasErrors_of_ne_nil {diags : Diagnostics} (he : ∀ diag ∈ diags, diag.isError = true)
    (h : diags ≠ []) : diags.hasErrors = true := by
  obtain ⟨diag, hmem⟩ := exists_mem_of_ne_nil diags h
  exact Select.hasErrors_of_mem hmem (he diag hmem)

/-- The diagnostics of one stage. -/
def ofStage (stage : Stage) (diags : Diagnostics) : Diagnostics := diags.filter (·.stage = stage)

/-- What one stage reported stands in front of what another one added. -/
theorem ofStage_append {stage other : Stage} (hne : other ≠ stage) {first rest : Diagnostics}
    (hf : ∀ diag ∈ first, diag.stage = stage) (hr : ∀ diag ∈ rest, diag.stage = other) :
    ofStage stage (first ++ rest) = first := by
  have hk : ofStage stage first = first := filter_eq_self.mpr fun diag hmem => by simp [hf diag hmem]
  have hd : ofStage stage rest = [] := filter_eq_nil_iff.mpr fun diag hmem => by simp [hr diag hmem, hne]
  rw [ofStage, filter_append, ← ofStage, ← ofStage, hk, hd, append_nil]

end Diagnostics

open Asm Abi Select Compilation

/-- Selection adds errors of its own stage. -/
theorem Select.adds_of_selectProgram {cx : Context} (hp : cx.Prepared) {diags after : Diagnostics}
    {unit : AssemblyUnit} (h : selectProgram cx diags = .ok (unit, after)) : Diagnostics.Adds .codegen diags after := by
  obtain ⟨syms, parts, drained, last, hsl, -, rfl⟩ := selected_of_selectProgram hp h
  obtain ⟨added, ha, hae⟩ := (hsl.reported hp).added
  obtain ⟨items, hsr⟩ := starts_of_emitStart hsl.emitStart_eq
  obtain ⟨started, hst, hse⟩ := hsr.addsErrors
  refine ⟨added ++ started, by rw [hst, ha, append_assoc], ?_⟩
  refine forall_mem_append.mpr ⟨fun diag hmem => ?_, fun diag hmem => ?_⟩
  · obtain ⟨hs, he, -⟩ := hae diag hmem
    exact ⟨hs, he⟩
  · obtain ⟨hs, he, -⟩ := hse diag hmem
    exact ⟨hs, he⟩

variable {colored : Bool} {reports : Diagnostics}

/-- What came of a compilation that ignored errors: what lowering reported, then what selection added. From that follows what comes of it
if errors are not ignored. -/
theorem exists_halting_of_ignoring {debug optimize : Bool} {src : Source.Program} {text : String}
    (h : (compileToAssembly colored ⟨true, debug, optimize⟩ src).start = .ok (.ok text, reports)) :
    ∃ first rest, reports = first ++ rest ∧ (∀ diag ∈ first, diag.stage = .lowering ∧ diag.isError = true) ∧
      (∀ diag ∈ rest, diag.stage = .codegen ∧ diag.isError = true) ∧
      (compileToAssembly colored ⟨false, debug, optimize⟩ src).start = if first.hasErrors then .ok (.error (.halted .lowering first), [])
        else if reports.hasErrors then .ok (.error (.halted .codegen reports), [])
        else .ok (.ok text, reports) := by
  obtain ⟨low, first, prog, unit, hl, hpr, hsl, ho⟩ := prepare_of_compileToAssembly rfl h
  cases ho
  obtain ⟨-, reported, hrp, hlw⟩ := Lower.lowerProgram_renders hl
  obtain rfl : first = reported := hrp
  have hpd := (Lower.renders_of_lowerProgram hl (Options.eq_of_prepare hpr)).prepared debug colored
  obtain ⟨rest, hrs, hsc⟩ := adds_of_selectProgram hpd hsl
  refine ⟨first, rest, hrs, hlw, hsc, ?_⟩
  have hh : ∀ diags : Diagnostics, Options.halts ⟨false, debug, optimize⟩ diags = diags.hasErrors := fun _ => Bool.and_true _
  rw [start, run_compileToAssembly, hl]
  show (if Options.halts _ first then _ else _) = _
  rw [hh]
  refine if_congr Iff.rfl rfl ?_
  -- nothing downstream looks at whether errors are ignored
  show Options.prepare ⟨true, debug, optimize⟩ low >>= _ = _
  rw [hpr]
  show selectProgram ⟨prog, debug, colored⟩ first >>= _ = _
  rw [hsl]
  show Except.ok (concluded _ _ _ _) = _
  rw [concluded, hh]
  exact apply_ite Except.ok _ _ _

/-- A compilation halts after lowering or after selection. -/
theorem Compiles.stage_of_halted {options : Options} {low : Flow.Program} {later : Diagnostics}
    {run : Except Failure String × Diagnostics} {stage : Stage} (h : Compiles colored options low later run)
    (hh : run.1 = .error (.halted stage reports)) : stage = .lowering ∨ stage = .codegen := by
  cases h with
  | halted hhl =>
    cases hh
    exact .inl rfl
  | selected hp hpr hs =>
    unfold concluded at hh
    split at hh
    · cases hh
      exact .inr rfl
    · cases hh

/-- Halting reports what going on would have found by then. Say that a program compiles if errors are ignored. Without errors it compiles
to the same text if they are not. Otherwise the compilation halts, and the list it started with is left empty: after lowering, with what
lowering reported, which stands at the front of all that there is to report; or, if lowering reported nothing, after selection, with all
of it. No compilation ever halts after merging. -/
theorem compileToAssembly_halts_early (colored debugInfo optimize : Bool) (source : Source.Program) (text : String)
    (reports : Diagnostics)
    (h : (compileToAssembly colored ⟨true, debugInfo, optimize⟩ source).start = .ok (.ok text, reports)) :
    (reports.hasErrors = false → (compileToAssembly colored ⟨false, debugInfo, optimize⟩ source).start = .ok (.ok text, reports)) ∧
    (reports.hasErrors = true → (∃ diagnostic ∈ reports, diagnostic.stage = .lowering) → reports.ofStage .lowering <+: reports ∧
      (compileToAssembly colored ⟨false, debugInfo, optimize⟩ source).start =
        .ok (.error (.halted .lowering (reports.ofStage .lowering)), [])) ∧
    (reports.hasErrors = true → (∀ diagnostic ∈ reports, diagnostic.stage ≠ .lowering) →
      (compileToAssembly colored ⟨false, debugInfo, optimize⟩ source).start = .ok (.error (.halted .codegen reports), [])) ∧
    ∀ ignoreErrors before halted after, (compileToAssembly colored ⟨ignoreErrors, debugInfo, optimize⟩ source).run.run before ≠
      .ok (.error (.halted .optimization halted), after) := by
  obtain ⟨first, rest, rfl, hfirst, hrest, hrun⟩ := exists_halting_of_ignoring h
  have hstages : Diagnostics.ofStage .lowering (first ++ rest) = first :=
    Diagnostics.ofStage_append (by decide) (fun diagnostic hmem => (hfirst diagnostic hmem).1) fun diagnostic hmem =>
      (hrest diagnostic hmem).1
  refine ⟨fun hnone => ?_, fun hsome hlowering => ?_, fun hsome hnone => ?_, ?_⟩
  · -- errors are all that there can be, so nothing was reported
    have hreports : first ++ rest = [] := by
      by_contra hne
      have hall : ∀ diagnostic ∈ first ++ rest, diagnostic.isError = true :=
        forall_mem_append.mpr ⟨fun diagnostic hmem => (hfirst diagnostic hmem).2, fun diagnostic hmem => (hrest diagnostic hmem).2⟩
      rw [Diagnostics.hasErrors_of_ne_nil hall hne] at hnone
      cases hnone
    obtain ⟨rfl, rfl⟩ := append_eq_nil_iff.mp hreports
    exact hrun
  · obtain ⟨diagnostic, hmem, hstage⟩ := hlowering
    have hlowered : diagnostic ∈ first := by
      rcases mem_append.mp hmem with hmem | hmem
      · exact hmem
      · rw [(hrest diagnostic hmem).1] at hstage
        cases hstage
    rw [hstages, hrun, if_pos (hasErrors_of_mem hlowered (hfirst diagnostic hlowered).2)]
    exact ⟨prefix_append first rest, rfl⟩
  · have hempty : first = [] := eq_nil_iff_forall_not_mem.mpr fun diagnostic hmem =>
      hnone diagnostic (mem_append_left _ hmem) (hfirst diagnostic hmem).1
    subst hempty
    rw [hrun, if_neg (by decide), if_pos hsome]
  · intro ignoreErrors before halted after hhalted
    obtain ⟨lowered, later, -, hcompiles⟩ := compiles_of_compileToAssembly hhalted
    rcases hcompiles.stage_of_halted rfl with hstage | hstage
    · cases hstage
    · cases hstage

/-- A program with an error that lowering finds, a break outside of loops, and one that selection finds, a value that cannot be made. -/
def stumbling : Source.Program where
  files := []
  types := ⟨[.void, .function [] 0]⟩
  functions := [⟨⟨"main", .unknown⟩, 1, .internal, false, .defined [] [] (.block .unknown [
      .expression .unknown (.make ⟨0, 0, .unknown⟩ 0 []), .breakLoop .unknown])⟩]
  classes := []
  entry := some 0

/-- Of the two errors only the first is reported if the compilation halts. -/
theorem compileToAssembly_halts_early_stumbling :
    ∃ text reports, (compileToAssembly false ⟨true, true, true⟩ stumbling).start = .ok (.ok text, reports) ∧
      reports.map (fun diagnostic => (diagnostic.stage, diagnostic.kind)) =
        [(.lowering, .unexpectedBreak), (.codegen, .unsupportedMakeTarget)] ∧
      reports.ofStage .lowering <+: reports ∧
      (compileToAssembly false ⟨false, true, true⟩ stumbling).start =
        .ok (.error (.halted .lowering (reports.ofStage .lowering)), []) := by
  have hreports : (compileToAssembly false ⟨true, true, true⟩ stumbling).start.map
      (fun run => (run.2.hasErrors, run.2.map fun diagnostic => (diagnostic.stage, diagnostic.kind))) =
      .ok (true, [(.lowering, .unexpectedBreak), (.codegen, .unsupportedMakeTarget)]) := by decide +kernel
  obtain ⟨⟨outcome, reports⟩, hrun, hview⟩ := exists_of_map_eq_ok hreports
  obtain ⟨herrors, hkinds⟩ := Prod.mk.inj hview
  obtain ⟨_, _, unit, -, -, rfl⟩ := selectProgram_of_compileToAssembly rfl hrun
  have hfirst := hkinds.symm ▸ mem_cons_self
  obtain ⟨diagnostic, hmem, hdiagnostic⟩ := mem_map.mp hfirst
  obtain ⟨-, hlowering, -, -⟩ := compileToAssembly_halts_early false true true stumbling unit.source reports hrun
  obtain ⟨hfront, hhalted⟩ := hlowering herrors ⟨diagnostic, hmem, (Prod.mk.inj hdiagnostic).1⟩
  exact ⟨unit.source, reports, hrun, hkinds, hfront, hhalted⟩

end TagAsm
