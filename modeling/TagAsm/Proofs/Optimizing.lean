import TagAsm.Proofs.DebugTables
import TagAsm.Proofs.Wanted

/-!
# With and without merging blocks

Merging blocks rearranges the statements of a program and does nothing else. So it changes neither whether a compilation halts, nor
after which stage, nor where the values of a subroutine are. What is reported does not change either, as long as every native
subroutine that is called has the type of a function: with a call of any other the subroutine is given up, and what was reported about
it until then depends on the order of its statements.
-/

namespace TagAsm.Select

open Asm Abi
open TagAsm.Flow (SubroutineId Subroutine)

/-- Every native subroutine that a body calls has the type of a function. -/
def NativeCallsTyped (prog : Flow.Program) : Prop :=
  ∀ sub ∈ prog.subroutines, ∀ body, sub.kind = .defined body → CallsFunctions prog body

theorem NativeCallsTyped.whole {prog : Flow.Program} (h : NativeCallsTyped prog) (task : Task) : task.Whole prog := by
  cases task with
  | subroutine id => exact fun sub body hid hb => h sub (List.mem_of_getElem? hid) body hb
  | initializer ty => trivial

/-- A frame with which code was selected for the subroutine with this id, whatever was selected before. -/
def FrameOf (cx : Context) (id : SubroutineId) (frame : Frame) : Prop :=
  ∃ sub body symbol before items after, cx.program.subroutines[id]? = some sub ∧ sub.kind = .defined body ∧
    (subroutineCode cx id sub body symbol).run.run before = .ok (.ok (items, frame), after)

/-- The frame does not depend on the arrangement. -/
theorem FrameOf.unique {cx : Context} {others : Table Subroutine} (ha : AllAkin cx.program.subroutines others)
    {id : SubroutineId} {frame frame' : Frame} (h : FrameOf (cx.withSubs others) id frame) (h' : FrameOf cx id frame') :
    frame = frame' := by
  obtain ⟨other, body', sym, before, items, after, ho, hb', hrun⟩ := h
  obtain ⟨sub, body, symbol', before', items', after', hsb, hb, hrun'⟩ := h'
  obtain ⟨-, words, hw, hf⟩ := subroutineCode_extent _ _ _ _ _ _ _ _ hrun
  obtain ⟨-, words', hw', hf'⟩ := subroutineCode_extent _ _ _ _ _ _ _ _ hrun'
  obtain ⟨found, hfn, hs⟩ := getElem?_of_forall₂ ha.flip ho
  cases hsb.symm.trans hfn
  obtain ⟨body₀, hb₀, hr⟩ := hs.exists_body hb'
  obtain rfl := Flow.SubroutineKind.defined.inj (hb.symm.trans hb₀)
  have hn : scratchWords cx.program body = .ok words := scratchWords_of_rearranged ha hr hw
  cases hn.symm.trans hw'
  dsimp only at hf hf'
  rw [hf, hf', hr.layoutOf_eq]

end TagAsm.Select

namespace TagAsm

open Asm Abi Select Compilation

/-! ## How a compilation ends -/

/-- Both compilations succeeded, or both halted after the same stage. -/
inductive EndAlike {α β : Type} : Except Failure α → Except Failure β → Prop where
  | succeeded (res : α) (result' : β) : EndAlike (.ok res) (.ok result')
  | halted (stage : Stage) (diags diagnostics' : Diagnostics) :
    EndAlike (.error (.halted stage diags)) (.error (.halted stage diagnostics'))

/-- All that a compilation reported, whether it is still in place or was handed over with the failure. -/
def reported {α : Type} : Except Failure α × Diagnostics → Diagnostics
  | (.error (.halted _ diags), after) => diags ++ after
  | (_, after) => after

/-- All that can come of compiling a program that was lowered. -/
inductive Compiles (colored : Bool) (options : Options) (low : Flow.Program) (later : Diagnostics) :
    Except Failure String × Diagnostics → Prop where
  | halted (hhalts : options.halts later = true) : Compiles colored options low later (.error (.halted .lowering later), [])
  | selected {prog : Flow.Program} {unit : AssemblyUnit} {after : Diagnostics} (hpasses : options.halts later = false)
    (hprogram : options.prepare low = .ok prog)
    (hselect : selectProgram ⟨prog, options.debugInfo, colored⟩ later = .ok (unit, after)) :
    Compiles colored options low later (concluded options .codegen unit.source after)

variable {α : Type} {colored : Bool} {options : Options} {src : Source.Program} {diags : Diagnostics} {low : Flow.Program}

theorem compiles_of_compileToAssembly {run : Except Failure String × Diagnostics}
    (h : (compileToAssembly colored options src).run.run diags = .ok run) :
    ∃ low later, Lower.lowerProgram src diags = .ok (low, later) ∧ Compiles colored options low later run := by
  rw [run_compileToAssembly] at h
  obtain ⟨⟨low, later⟩, hl, h⟩ := of_bind_eq_ok h
  refine ⟨low, later, hl, ?_⟩
  split at h
  · rename_i hh
    cases h
    exact .halted hh
  · rename_i hp
    obtain ⟨prog, hpr, h⟩ := of_bind_eq_ok h
    obtain ⟨⟨unit, after⟩, hs, h⟩ := of_bind_eq_ok h
    cases h
    exact .selected (by simpa using hp) hpr hs

/-! ## Two compilations -/

theorem reported_concluded (options : Options) (stage : Stage) (res : α) (diags : Diagnostics) :
    reported (concluded options stage res diags) = diags := by
  unfold concluded
  split
  · exact List.append_nil diags
  · rfl

/-- Stages that agree on whether there are errors end alike at their checkpoints. -/
theorem endAlike_concluded {β : Type} {options' : Options} (stage : Stage) (res : α) (result' : β)
    {diagnostics' : Diagnostics} (h : options.halts diags = options'.halts diagnostics') :
    EndAlike (concluded options stage res diags).1 (concluded options' stage result' diagnostics').1 := by
  unfold concluded
  rw [h]
  split
  · exact .halted stage diags diagnostics'
  · exact .succeeded res result'

/-- What selection reports for a program, with its blocks merged and as it is. -/
theorem selectProgram_alike {merged : Flow.Program} (hr : Lower.Renders src low)
    (hm : low.merge = .ok merged) {debug : Bool} {later after after' : Diagnostics} {unit unit' : AssemblyUnit}
    (h : selectProgram ⟨merged, debug, colored⟩ later = .ok (unit, after))
    (h' : selectProgram ⟨low, debug, colored⟩ later = .ok (unit', after')) :
    after.hasErrors = after'.hasErrors ∧ (NativeCallsTyped low → after.Perm after') := by
  have hr' := hr.merge hm
  obtain ⟨others, ha, rfl⟩ := akin_of_merge hr.wellFormed hm
  -- the program as it is has its own subroutines for the others
  let cx : Context := ⟨low, debug, colored⟩
  have hsm : AllAkin cx.program.subroutines low.subroutines := AllAkin.refl _
  have hp : (cx.withSubs others).Prepared := hr'.prepared debug colored
  have hp' : (cx.withSubs low.subroutines).Prepared := hr.prepared debug colored
  obtain ⟨syms, parts, drained, last, hs, -, rfl⟩ := selected_of_selectProgram hp h
  obtain ⟨symbols', parts', drained', last', hs', -, rfl⟩ := selected_of_selectProgram hp' h'
  exact ⟨hs.hasErrors_eq ha hsm hp hp' hs', fun ht => hs.perm_diagnostics ha hsm hp hp' hs' fun task _ => ht.whole task⟩

/-- Whether blocks are merged or not, a compilation that returns ends alike: it succeeds, or it halts after the same stage. Where all
native subroutines that are called have function types, it reports the same, up to order. And in a subroutine that is emitted either
way, the frame has the same size and every value the same slot. -/
theorem compileToAssembly_optimize_alike (colored ignoreErrors debugInfo : Bool) (source : Source.Program) (diagnostics : Diagnostics)
    (run run' : Except Failure String × Diagnostics)
    (hmerged : (compileToAssembly colored ⟨ignoreErrors, debugInfo, true⟩ source).run.run diagnostics = .ok run)
    (hplain : (compileToAssembly colored ⟨ignoreErrors, debugInfo, false⟩ source).run.run diagnostics = .ok run') :
    EndAlike run.1 run'.1 ∧ ∃ low later, Lower.lowerProgram source diagnostics = .ok (low, later) ∧
      (NativeCallsTyped low → (reported run).Perm (reported run')) ∧
      ∀ merged id frame frame', low.merge = .ok merged → FrameOf ⟨merged, debugInfo, colored⟩ id frame →
        FrameOf ⟨low, debugInfo, colored⟩ id frame' →
        frame.size = frame'.size ∧ ∀ value, frame.slot? value = frame'.slot? value := by
  obtain ⟨low, later, hlower, hcompiles⟩ := compiles_of_compileToAssembly hmerged
  obtain ⟨lowered', later', hlower', hcompiles'⟩ := compiles_of_compileToAssembly hplain
  obtain ⟨rfl, rfl⟩ := ok_pair_inj (hlower.symm.trans hlower')
  obtain ⟨hrenders, -⟩ := Lower.lowerProgram_renders hlower
  have hframes : ∀ merged id frame frame', low.merge = .ok merged → FrameOf ⟨merged, debugInfo, colored⟩ id frame →
      FrameOf ⟨low, debugInfo, colored⟩ id frame' →
      frame.size = frame'.size ∧ ∀ value, frame.slot? value = frame'.slot? value := by
    intro merged id frame frame' hmerge hframe hframe'
    obtain ⟨others, hakin, rfl⟩ := akin_of_merge hrenders.wellFormed hmerge
    have hmoved : FrameOf (Context.withSubs ⟨low, debugInfo, colored⟩ others) id frame := hframe
    obtain rfl := hmoved.unique hakin hframe'
    exact ⟨rfl, fun _ => rfl⟩
  have hends : EndAlike run.1 run'.1 ∧ (NativeCallsTyped low → (reported run).Perm (reported run')) := by
    cases hcompiles with
    | halted hhalts =>
      cases hcompiles' with
      | halted _ => exact ⟨.halted _ _ _, fun _ => .refl _⟩
      | selected hpasses => exact absurd (hhalts.symm.trans hpasses) Bool.noConfusion
    | @selected program unit after hpasses hprogram hselect =>
      cases hcompiles' with
      | halted hhalts => exact absurd (hhalts.symm.trans hpasses) Bool.noConfusion
      | @selected program' unit' after' _ hprogram' hselect' =>
        obtain rfl : low = program' := Except.ok.inj hprogram'
        obtain ⟨herrors, hperm⟩ := selectProgram_alike hrenders hprogram hselect hselect'
        refine ⟨endAlike_concluded _ _ _ ?_, fun htyped => ?_⟩
        · rw [Options.halts, Options.halts, herrors]
        · rw [reported_concluded, reported_concluded]
          exact hperm htyped
  exact ⟨hends.1, low, later, hlower, hends.2, hframes⟩

/-- A program whose blocks come in another order once they are merged. It calls `puts`, a native function of the given type, and makes a
value that cannot be made. -/
def detour (native : TypeId) : Source.Program where
  files := []
  types := ⟨[.void, .primitive .bool, .function [] 0]⟩
  functions := [⟨⟨"main", .unknown⟩, 2, .internal, false, .defined [] [] (.block .unknown [
      .branch .unknown (.literal ⟨0, 1, .unknown⟩ (.bool true))
        (.expression .unknown (.call ⟨1, 0, .unknown⟩ (.functionRef ⟨2, 0, .unknown⟩ 1) [.literal ⟨5, 1, .unknown⟩ (.bool true)]))
        (some (.returnValue .unknown (some (.make ⟨3, 0, .unknown⟩ 0 [])))),
      .expression .unknown (.literal ⟨4, 1, .unknown⟩ (.bool true))])⟩,
    ⟨⟨"puts", .unknown⟩, native, .foreign, false, .imported "c" none⟩]
  classes := []
  entry := none

/-- If the native function does not have the type of a function, `main` is given up at the call. With merged blocks the value that
cannot be made comes first, so it has been reported by then. -/
theorem detour_reports_differ : ∃ run run', (compileToAssembly false ⟨false, false, true⟩ (detour 0)).start = .ok run ∧
    (compileToAssembly false ⟨false, false, false⟩ (detour 0)).start = .ok run' ∧
    (reported run).map (·.kind) = [.unsupportedMakeTarget, .missingSymbol] ∧ (reported run').map (·.kind) = [.missingSymbol] ∧
    ¬(reported run).Perm (reported run') := by
  have hmerged : (compileToAssembly false ⟨false, false, true⟩ (detour 0)).start.map (fun run => (reported run).map (·.kind)) =
      .ok [.unsupportedMakeTarget, .missingSymbol] := by decide +kernel
  have hplain : (compileToAssembly false ⟨false, false, false⟩ (detour 0)).start.map (fun run => (reported run).map (·.kind)) =
      .ok [.missingSymbol] := by decide +kernel
  obtain ⟨run, hrun, hkinds⟩ := exists_of_map_eq_ok hmerged
  obtain ⟨run', hrun', hkinds'⟩ := exists_of_map_eq_ok hplain
  refine ⟨run, run', hrun, hrun', hkinds, hkinds', fun hperm => ?_⟩
  have hlength := (hperm.map (·.kind)).length_eq
  rw [hkinds, hkinds'] at hlength
  cases hlength

/-- If it does, the call is reported for its argument, and the two errors come in the one order or in the other. -/
theorem compileToAssembly_optimize_alike_detour : ∃ run run', (compileToAssembly false ⟨false, false, true⟩ (detour 2)).start = .ok run ∧
      (compileToAssembly false ⟨false, false, false⟩ (detour 2)).start = .ok run' ∧
      (reported run).map (·.kind) = [.unsupportedMakeTarget, .wrongArgumentCount] ∧
      (reported run').map (·.kind) = [.wrongArgumentCount, .unsupportedMakeTarget] ∧
      EndAlike run.1 run'.1 ∧ (reported run).Perm (reported run') ∧
      ∃ low later, Lower.lowerProgram (detour 2) [] = .ok (low, later) ∧ NativeCallsTyped low ∧
        ∀ merged id frame frame', low.merge = .ok merged → FrameOf ⟨merged, false, false⟩ id frame →
          FrameOf ⟨low, false, false⟩ id frame' → frame.size = frame'.size ∧ ∀ value, frame.slot? value = frame'.slot? value := by
  have hmerged : (compileToAssembly false ⟨false, false, true⟩ (detour 2)).start.map (fun run => (reported run).map (·.kind)) =
      .ok [.unsupportedMakeTarget, .wrongArgumentCount] := by decide +kernel
  have hplain : (compileToAssembly false ⟨false, false, false⟩ (detour 2)).start.map (fun run => (reported run).map (·.kind)) =
      .ok [.wrongArgumentCount, .unsupportedMakeTarget] := by decide +kernel
  obtain ⟨run, hrun, hkinds⟩ := exists_of_map_eq_ok hmerged
  obtain ⟨run', hrun', hkinds'⟩ := exists_of_map_eq_ok hplain
  obtain ⟨hend, low, later, hlower, hperm, hframes⟩ :=
    compileToAssembly_optimize_alike false false false (detour 2) [] run run' hrun hrun'
  have htyped : NativeCallsTyped low := by
    obtain ⟨hrenders, -⟩ := Lower.lowerProgram_renders hlower
    intro _ _ _ _ statement _ result callee arguments subroutine _ hcallee _ hsignature
    obtain ⟨function, hfunction, hstands⟩ := hrenders.exists_function hcallee
    have hty : function.ty = 2 := by
      have hmem := List.mem_of_getElem? hfunction
      simp only [detour, List.mem_cons, List.not_mem_nil, or_false] at hmem
      rcases hmem with rfl | rfl
      · rfl
      · rfl
    rw [hstands.ty_eq, hrenders.types_eq, hty] at hsignature
    cases hsignature
  exact ⟨run, run', hrun, hrun', hkinds, hkinds', hend, hperm htyped, low, later, hlower, htyped, hframes⟩

end TagAsm
