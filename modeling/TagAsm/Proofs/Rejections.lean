import TagAsm.Proofs.Demands

/-!
# What a rejection leaves behind

A statement that makes sense but cannot be compiled is reported and skipped. It is emitted in steps, and what the steps did stays, so
nothing is left of it only because everything is checked before anything is noted or emitted. The same holds for subroutines, which
are rejected before their code is selected.
-/

namespace TagAsm.Select

open Asm Abi SelectM
open TagAsm.Flow (SubroutineId Body Subroutine)

section

variable {cx : Context} {kept after : Selection} {kind : DiagnosticKind} {msg : String}

/-- Where a step is rejected that writes code, everything is as it was; and it is rejected whatever was emitted before. -/
theorem EmitM.Writes.of_rejected {step : EmitM Unit} {code : SelectM (List Item)} {before after : Emitter}
    (h : Writes step before.frame code) (hrun : step.run.run before = .ok (.error (.rejected kind msg), after)) :
    after = before ∧ ∀ items, step.run.run { before with items } = .ok (.error (.rejected kind msg), { before with items }) := by
  obtain ⟨kept, items, frame⟩ := before
  have hb := h kept items
  rw [hrun] at hb
  generalize hcode : code.run.run kept = found at hb
  cases hb with
  | refused _ _ hl =>
    obtain rfl := hl rfl
    refine ⟨rfl, fun items => ?_⟩
    have hi := h kept items
    rw [hcode] at hi
    generalize step.run.run _ = other at hi ⊢
    cases hi with
    | refused _ _ hl => rw [hl rfl]

/-- A step after which everything is accepted rejects what its first part rejects. -/
theorem run_bind_eq_rejected_iff {α β : Type} {first : SelectM α} {next : α → SelectM β} (h : ∀ res, Accepts (next res)) :
    (first >>= next).run.run kept = .ok (.error (.rejected kind msg), after) ↔
      first.run.run kept = .ok (.error (.rejected kind msg), after) := by
  constructor
  · intro hrun
    obtain ⟨⟨found, later⟩, hf, hr⟩ := of_bind_eq_ok hrun
    cases found with
    | error refusal =>
      obtain ⟨ho, rfl⟩ := ok_pair_inj hr
      rw [← Except.error.inj ho]
      exact hf
    | ok res => cases h res later _ after hr
  · intro hf
    rw [ExceptT.run_bind, StateT.run_bind, hf]
    rfl

/-- A subroutine is rejected by the checks of the entry subroutine, and by nothing else. -/
theorem run_subroutineCode_eq_rejected_iff (id : SubroutineId) (sub : Subroutine) (body : Body) (sym : String) :
    (subroutineCode cx id sub body sym).run.run kept = .ok (.error (.rejected kind msg), after) ↔
      (exitOf cx id sub).run.run kept = .ok (.error (.rejected kind msg), after) := by
  obtain ⟨rest, hc, hr⟩ := subroutineCode_eq_bind cx id sub body sym
  rw [hc]
  exact run_bind_eq_rejected_iff fun exit kept refusal after hrun => ((hr False False.elim exit kept _ after hrun).2.2 refusal rfl).1

/-! ## What is left -/

/-- What was kept, with one error more. -/
def Selection.withError (kept : Selection) (kind : DiagnosticKind) (location : Location) (message : String) : Selection :=
  { kept with diagnostics := kept.diagnostics ++ [.error .codegen kind location message] }

/-- What is left of the statement with this number, of which the comment is `text`: its label and the comment are emitted, one error
is reported, and the frame stays. -/
def Emitter.skip (before : Emitter) (cx : Context) (rt : Routine) (num : Nat) (stmt : Flow.Statement) (text : String)
    (kind : DiagnosticKind) (msg : String) : Emitter :=
  ⟨before.kept.withError kind stmt.location msg,
    before.items ++ statementLabel cx rt.symbol num stmt ++ [.comment (Plain.strip text)], before.frame⟩

variable {rt : Routine} {stmt : Flow.Statement} {before : Emitter} {text : String}

theorem run_statement_of_rejected {later : Emitter}
    (hrun : (EmitM.action cx rt.scratch stmt.action).run.run before = .ok (.error (.rejected kind msg), later))
    (htext : cx.program.actionText rt.body cx.colored stmt.action = .ok text) (num : Nat) :
    (EmitM.statement cx rt num stmt).run.run before = .ok (.ok (), before.skip cx rt num stmt text kind msg) := by
  have hw := EmitM.action_writes cx { rt with frame := before.frame } stmt.action
  have ha := (EmitM.Writes.of_rejected hw hrun).2 (before.items ++ statementLabel cx rt.symbol num stmt ++ [.comment (Plain.strip text)])
  unfold EmitM.statement
  rw [htext]
  show (EmitM.actionOrError cx rt.scratch stmt).run.run _ = _
  rw [EmitM.actionOrError, ExceptT.run_tryCatch, StateT.run_bind]
  refine (congrArg (· >>= _) ha).trans ?_
  rfl

/-- Where the subroutine is rejected, one error is reported, and nothing else changes. -/
theorem emitSubroutine_of_rejected {id : SubroutineId} {sub : Subroutine} {body : Body} {name : String} {em : Emission}
    (hid : cx.program.subroutines[id]? = some sub) (hb : sub.kind = .defined body)
    (hn : cx.program.subroutineName id = .ok name) {sym : String} (hs : em.kept.symbols.subroutine? id = some sym)
    (hrun : (exitOf cx id sub).run.run em.kept = .ok (.error (.rejected kind msg), em.kept)) :
    emitSubroutine cx id em = .ok { em with
        kept := em.kept.withError kind sub.symbol.location ("`" ++ name ++ "`" ++ " was not compiled: " ++ msg) } := by
  have hc := (run_subroutineCode_eq_rejected_iff id sub body sym).mpr hrun
  unfold emitSubroutine
  simp only [hid, hb, hs]
  rw [hn]
  rw [hc]
  rfl

end

/-- Where an action is rejected, what was kept, the code that was emitted and the frame are as they were. Its statement is skipped: its
label and its comment are emitted, one error is reported at its place, the statements after it are emitted all the same, and its
line stays in the debug tables. Subroutines are rejected by the checks of the entry subroutine only. That leaves everything as it
was, too, and one error is reported. -/
theorem rejection_leaves_nothing (context : Context) (kind : DiagnosticKind) (message : String) :
    (∀ (routine : Routine) (statement : Flow.Statement) (before after : Emitter),
      (EmitM.action context routine.scratch statement.action).run.run before = .ok (.error (.rejected kind message), after) →
      after = before ∧ ∀ (number : Nat) (text : String),
        context.program.actionText routine.body context.colored statement.action = .ok text →
        (EmitM.statement context routine number statement).run.run before =
          .ok (.ok (), before.skip context routine number statement text kind message) ∧
        (∀ rest, (EmitM.statements context routine ((statement, number) :: rest)).run.run before =
          (EmitM.statements context routine rest).run.run (before.skip context routine number statement text kind message)) ∧
        ∀ entry, (bodyStatements routine.body)[number]? = some statement →
          DebugTables.lineEntry? (lineLabel routine.symbol number) statement.location = some entry →
          entry ∈ lineEntries routine.symbol routine.body) ∧
    (∀ (id : SubroutineId) (subroutine : Subroutine) (body : Body) (symbol : String) (kept after : Selection),
      (subroutineCode context id subroutine body symbol).run.run kept = .ok (.error (.rejected kind message), after) ↔
        (exitOf context id subroutine).run.run kept = .ok (.error (.rejected kind message), after)) ∧
    (∀ (id : SubroutineId) (subroutine : Subroutine) (kept after : Selection),
      (exitOf context id subroutine).run.run kept = .ok (.error (.rejected kind message), after) →
      after = kept ∧ ∀ (body : Body) (name symbol : String) (emission : Emission),
        context.program.subroutines[id]? = some subroutine → subroutine.kind = .defined body →
        context.program.subroutineName id = .ok name → kept.symbols.subroutine? id = some symbol → emission.kept = kept →
        emitSubroutine context id emission = .ok { emission with
            kept := kept.withError kind subroutine.symbol.location ("`" ++ name ++ "`" ++ " was not compiled: " ++ message) }) := by
  refine ⟨fun routine statement before after hrun => ?_, fun id subroutine body symbol kept after =>
    run_subroutineCode_eq_rejected_iff id subroutine body symbol, fun id subroutine kept after hrun => ?_⟩
  · have hwrites := EmitM.action_writes context { routine with frame := before.frame } statement.action
    refine ⟨(EmitM.Writes.of_rejected hwrites hrun).1, fun number text htext => ?_⟩
    have hstatement := run_statement_of_rejected hrun htext number
    refine ⟨hstatement, fun rest => ?_, fun entry hstatement hentry =>
      List.mem_filterMap.mpr ⟨(statement, number), List.mem_zipIdx_iff_getElem?.mpr hstatement, hentry⟩⟩
    rw [EmitM.statements, ExceptT.run_bind, StateT.run_bind, hstatement]
    rfl
  · obtain rfl := (exitOf_fixed context id subroutine).after_eq hrun
    refine ⟨rfl, fun body name symbol emission hid hbody hname hsymbol hkept => ?_⟩
    subst hkept
    exact emitSubroutine_of_rejected hid hbody hname hsymbol hrun

/-- A body that gives its parameter to native code, which takes no strings, and then copies it. -/
def postcardBody : Body where
  returnValue := 0
  parameters := [1]
  locals := []
  temporaries := [2]
  values := [⟨0, none, 0⟩, ⟨1, some ⟨"words", .unknown⟩, 1⟩, ⟨2, none, 0⟩]
  blocks := [⟨[⟨.call 2 1 [1], ⟨some 0, 7, 3⟩⟩, ⟨.assign 0 (.value 1), .unknown⟩], .jump 1, []⟩, ⟨[], .sink, []⟩]
  entry := 0
  sink := 1

/-- A program that starts with that body. -/
def postcard : Flow.Program where
  files := [⟨.memory⟩]
  types := ⟨[.dynamic, .primitive .string, .function [1] 0]⟩
  classNames := []
  subroutines := [⟨⟨"send", .unknown⟩, 2, .internal, none, .defined postcardBody⟩, ⟨⟨"puts", .unknown⟩, 2, .foreign, none, .declared⟩]
  defined := [0]
  declared := [1]
  imported := []
  methods := []
  classes := []
  literals := []
  entry := some 0

/-- Nothing is left of the native call but a comment and a label, and nothing of the subroutine. -/
theorem rejection_leaves_nothing_postcard : let context : Context := ⟨postcard, true, false⟩
    let kept : Selection := ⟨⟨["send", "puts"], [], [], [], []⟩, [], [], []⟩
    let routine : Routine := ⟨0, "send", postcardBody, (layoutOf postcardBody 1).frame, (layoutOf postcardBody 1).scratch⟩
    let before : Emitter := ⟨kept, [.label "send"], routine.frame⟩
    let call : Flow.Statement := ⟨.call 2 1 [1], ⟨some 0, 7, 3⟩⟩
    let message := "`string` can't be passed to foreign subroutine `puts`"
    let after : Emitter := ⟨kept.withError .unsupportedForeignType ⟨some 0, 7, 3⟩ message,
      [.label "send", .label (lineLabel "send" 0), .comment "%2 = call puts(%1.words)"], routine.frame⟩
    (EmitM.action context routine.scratch call.action).run.run before = .ok (.error (.rejected .unsupportedForeignType message), before) ∧
      (EmitM.statement context routine 0 call).run.run before = .ok (.ok (), after) ∧
      emitSubroutine context 0 ⟨kept, [], .empty, []⟩ = .ok ⟨kept.withError .wrongArgumentCount .unknown
          ("`" ++ "send" ++ "`" ++ " was not compiled: " ++ "the entry subroutine can't take parameters"), [], .empty, []⟩ := by
  intro context kept routine before call message after
  have hrun : (EmitM.action context routine.scratch call.action).run.run before =
      .ok (.error (.rejected .unsupportedForeignType message), before) := by decide +kernel
  have hexit : (exitOf context 0 ⟨⟨"send", .unknown⟩, 2, .internal, none, .defined postcardBody⟩).run.run kept =
      .ok (.error (.rejected .wrongArgumentCount "the entry subroutine can't take parameters"), kept) := by
    decide +kernel
  have hstatement := (rejection_leaves_nothing context _ _).1 routine call before before hrun
  have hsubroutine := (rejection_leaves_nothing context _ _).2.2 0 _ kept kept hexit
  refine ⟨hrun, (hstatement.2 0 "%2 = call puts(%1.words)" (by decide +kernel)).1.trans ?_, ?_⟩
  · decide +kernel
  · exact hsubroutine.2 postcardBody "send" "send" ⟨kept, [], .empty, []⟩ rfl rfl (by decide +kernel) rfl rfl

end TagAsm.Select
