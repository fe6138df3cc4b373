import TagAsm.Proofs.Assembling
import TagAsm.Proofs.LineLabels

/-!
# Debug tables do not change the code

Whether debug tables are wanted is asked for at three places only: where a statement gets its label, where an emitted subroutine is
described, and where the unit is put together. So two selections of one program, one with debug tables and one without, keep the same
all along, and their texts differ by the labels of lines.
-/

namespace TagAsm.Asm

/-- A unit without debug tables, and without the labels that only they refer to. -/
def AssemblyUnit.withoutDebugInfo (unit : AssemblyUnit) : AssemblyUnit :=
  ⟨unit.externs, unit.rodata, withoutLineLabels unit.text, [], [], []⟩

end TagAsm.Asm

namespace TagAsm.Select

open Asm Abi SelectM
open TagAsm.Flow (SubroutineId)

/-- What was emitted with debug tables, and what was emitted without them. -/
structure Emission.Beside (full bare : Emission) : Prop where
  kept_eq : full.kept = bare.kept
  emitted_eq : full.emitted = bare.emitted
  text : ∃ marks, Bears full.text marks bare.text

section

variable {full bare : Emission}

theorem Emission.Beside.add (h : full.Beside bare) {items items' : List Item} {marks : List (String × String)}
    (hi : Bears items marks items') (kept : Selection) (debug debug' : DebugTables) (ids : List SubroutineId) :
    Beside ⟨kept, full.text ++ items, debug, full.emitted ++ ids⟩ ⟨kept, bare.text ++ items', debug', bare.emitted ++ ids⟩ := by
  obtain ⟨marks', hb⟩ := h.text
  exact ⟨rfl, by rw [h.emitted_eq], marks' ++ marks, hb.append hi⟩

/-- Nothing is added, and the same is kept. -/
theorem Emission.Beside.keep (h : full.Beside bare) (kept : Selection) : Beside { full with kept } { bare with kept } :=
  ⟨rfl, h.emitted_eq, h.text⟩

variable (cx : Context)

theorem emitSubroutine_both (id : SubroutineId) (h : full.Beside bare) :
    Both Emission.Beside (emitSubroutine cx id full) (emitSubroutine cx.withoutDebugInfo id bare) := by
  have hp : cx.withoutDebugInfo.program = cx.program := rfl
  unfold emitSubroutine
  rw [hp, ← h.kept_eq]
  cases cx.program.subroutines[id]? with
  | none => exact .result h
  | some sub =>
    cases hk : sub.kind with
    | declared | imported => simpa only [hk] using .result h
    | defined body =>
      simp only [hk]
      refine .bind (.same _) fun name name' hn => ?_
      subst hn
      cases full.kept.symbols.subroutine? id with
      | none => exact .result (h.keep _)
      | some sym =>
        refine .bind (subroutineCode_inStep cx id sub body sym full.kept) fun out outcome' ha => ?_
        cases ha with
        | refused refusal kept => exact .result (h.keep _)
        | @result res result' kept hr =>
          obtain ⟨⟨marks, hb, -⟩, hf⟩ := hr
          dsimp only
          rw [hf]
          refine .bind (.same _) fun places places' hpl => .result ?_
          exact h.add hb kept _ _ [id]

theorem emitInitializer_both (ty : TypeId) (sym : String) (h : full.Beside bare) :
    Both Emission.Beside (emitInitializer cx ty sym full) (emitInitializer cx.withoutDebugInfo ty sym bare) := by
  have hp : cx.withoutDebugInfo.program = cx.program := rfl
  unfold emitInitializer
  rw [hp, ← h.kept_eq]
  cases cx.program.classOfType? ty with
  | none =>
    refine .bind (.same _) fun name name' hn => ?_
    subst hn
    exact .result (h.keep _)
  | some decl =>
    refine .bind (InStep.same (initializerCode_bears cx decl sym) full.kept) fun out outcome' ha => ?_
    cases ha with
    | refused refusal kept => exact .result (h.keep _)
    | @result items items' kept hi =>
      obtain ⟨rfl, hb⟩ := hi
      obtain ⟨marks, ht⟩ := h.text
      exact .result ⟨rfl, h.emitted_eq, _, ht.append hb⟩

theorem emitWork_both (work : Work) (h : full.Beside bare) :
    Both Emission.Beside (emitWork cx work full) (emitWork cx.withoutDebugInfo work bare) := by
  cases work with
  | subroutine id => exact emitSubroutine_both cx id h
  | initializer ty sym => exact emitInitializer_both cx ty sym h

theorem drain_both (fuel : Nat) (h : full.Beside bare) :
    Both Emission.Beside (drain cx fuel full) (drain cx.withoutDebugInfo fuel bare) := by
  induction fuel generalizing full bare with
  | zero => exact .result h
  | succ fuel ih =>
    cases hq : full.kept.queue with
    | nil =>
      rw [drain_of_queue_eq_nil hq, drain_of_queue_eq_nil (h.kept_eq ▸ hq)]
      exact .result h
    | cons work queue =>
      rw [drain_succ hq, drain_succ (h.kept_eq ▸ hq)]
      have hw : (full.waiting queue).Beside (bare.waiting queue) := by
        unfold Emission.waiting
        rw [h.kept_eq]
        exact h.keep _
      exact (emitWork_both cx work hw).bind fun next next' hn => ih hn

theorem emitStart_both (h : full.Beside bare) : Both Emission.Beside (emitStart cx full) (emitStart cx.withoutDebugInfo bare) := by
  have hp : cx.withoutDebugInfo.program = cx.program := rfl
  unfold emitStart
  rw [hp, ← h.kept_eq, ← h.emitted_eq]
  cases cx.program.entry with
  | none => exact .result h
  | some entry =>
    dsimp only
    split
    · cases full.kept.symbols.subroutine? entry with
      | none => exact .result h
      | some sym =>
        refine .bind (InStep.same (startCode_bears sym) full.kept) fun out outcome' ha => ?_
        cases ha with
        | refused refusal kept => exact .result ⟨rfl, rfl, h.text⟩
        | @result items items' kept hi =>
          obtain ⟨rfl, hb⟩ := hi
          obtain ⟨marks, ht⟩ := h.text
          exact .result ⟨rfl, rfl, _, hb.append ht⟩
    · cases cx.program.subroutines[entry]? with
      | none => exact .result h
      | some sub =>
        dsimp only
        split
        · exact .result (h.keep _)
        · exact .result h

/-- In the end the unit with debug tables is the one without them, once they and their labels are taken away. -/
theorem Emission.Beside.toUnit (h : full.Beside bare) : (full.toUnit true).withoutDebugInfo = bare.toUnit false := by
  obtain ⟨marks, hb⟩ := h.text
  have ht : withoutLineLabels full.text = bare.text := by
    have hall := hb.bare_eq []
    rwa [List.append_nil, withoutLineLabels, List.append_nil] at hall
  have hr := (toUnit_rodata full true).trans (h.kept_eq ▸ (toUnit_rodata bare false).symm)
  unfold AssemblyUnit.withoutDebugInfo
  rw [toUnit_externs, toUnit_text, hr, ht, h.kept_eq]
  rfl

end

/-- Debug tables do not change the code. A program is selected with them exactly if it is selected without them, the same is reported in
the same order, and the unit with them is the one without them but for the tables and for the labels of lines. -/
theorem selectProgram_withoutDebugInfo (program : Flow.Program) (colored : Bool) (diagnostics : Diagnostics) :
    (selectProgram ⟨program, true, colored⟩ diagnostics).map (Prod.map AssemblyUnit.withoutDebugInfo id) =
      selectProgram ⟨program, false, colored⟩ diagnostics := by
  let context : Context := ⟨program, true, colored⟩
  have hboth : Both (fun result result' => Prod.map AssemblyUnit.withoutDebugInfo id result = result')
      (selectProgram context diagnostics) (selectProgram context.withoutDebugInfo diagnostics) := by
    refine .bind (.same _) fun symbols symbols' hsymbols => ?_
    subst hsymbols
    have hstart : (Emission.initial context symbols diagnostics).Beside (Emission.initial context.withoutDebugInfo symbols diagnostics) :=
      ⟨rfl, rfl, [], .nil⟩
    refine (drain_both context _ hstart).bind fun drained drained' hdrained => ?_
    refine (emitStart_both context hdrained).bind fun last last' hlast => .result ?_
    exact Prod.ext hlast.toUnit (congrArg Selection.diagnostics hlast.kept_eq)
  change (selectProgram context diagnostics).map _ = selectProgram context.withoutDebugInfo diagnostics
  generalize selectProgram context diagnostics = full at hboth
  generalize selectProgram context.withoutDebugInfo diagnostics = bare at hboth
  cases hboth with
  | fault fault => rfl
  | result h => exact congrArg Except.ok h

end TagAsm.Select
