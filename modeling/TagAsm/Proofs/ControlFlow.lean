import TagAsm.Lower.Program
import TagAsm.Proofs.Additive
import TagAsm.Proofs.Bodies
import TagAsm.Proofs.Wiring

/-!
# Lowering keeps the flow of control

Lowering a statement into a draft and planning it go in step: both lower the same expressions in the same order, so they come
to the same statements, and the blocks that lowering adds realize the plan. With that, the graph of a function body does what
the structured execution of the body does.
-/

namespace TagAsm.Lower

open TagAsm.Flow Draft
open Source (Stmt Expr)

/-- A draft in which a statement can be lowered, and one in which it can be planned: they are alike, and no code is at hand. -/
structure Draft.Ready (draft planned : Draft) : Prop extends draft.Alike planned where
  code_nil : draft.code = []

namespace Draft.Ready

variable {draft planned : Draft}

variable (h : draft.Ready planned)
include h

theorem connect (id tgt : BlockId) : (draft.connectBlocks id tgt).Ready planned := ⟨⟨h.values, h.literals, h.code⟩, h.code_nil⟩

theorem terminate (id : BlockId) (term : Terminator) : (draft.setTerminator id term).Ready planned :=
  ⟨⟨h.values, h.literals, h.code⟩, h.code_nil⟩

theorem error (kind : DiagnosticKind) (loc : Location) (msg : String) : (draft.addError kind loc msg).Ready planned :=
  ⟨⟨h.values, h.literals, h.code⟩, h.code_nil⟩

theorem newBlock (exprs : List Source.ExprId) : (draft.addBlock exprs).Ready planned :=
  ⟨⟨h.values, h.literals, h.code_nil.symm.trans h.code⟩, rfl⟩

/-- A new block without expressions is empty. -/
theorem blocks_newBlock : (draft.addBlock []).blocks = draft.blocks.push ⟨[], [], none⟩ := by
  rw [addBlock, h.code_nil]

end Draft.Ready

/-! ## Runs of drafting actions -/

section

variable {α β : Type} {first : LowerM α} {then' : α → LowerM β} {draft later : Draft} {res : α}

theorem run_bind (h : first.run draft = (res, later)) : (first >>= then').run draft = (then' res).run later := by
  have hrun : (first >>= then').run draft = (then' (first.run draft).1).run (first.run draft).2 := rfl
  rw [hrun, h]

theorem run_newBlock (exprs : List Source.ExprId) : (newBlock exprs).run draft = (draft.blocks.length, draft.addBlock exprs) := rfl

theorem run_connect (id tgt : BlockId) : (connect id tgt).run draft = ((), draft.connectBlocks id tgt) := rfl

theorem run_terminate (id : BlockId) (term : Terminator) : (terminate id term).run draft = ((), draft.setTerminator id term) := rfl

theorem run_pure (res : α) : (pure res : LowerM α).run draft = (res, draft) := rfl

end

/-! ## Expressions -/

/-- An expression that is evaluated as a whole: planning takes the very code that lowering has at hand, and the draft is ready
again once that code, with whatever is put after it, is in a block. -/
theorem planRoot_run {α : Type} {lower : LowerM α} (hlw : Additive lower) (id : Source.ExprId) {draft planned : Draft}
    (h : draft.Ready planned) :
    ∃ code res low after, lower.run draft = (res, low) ∧ (planRoot id lower).run planned = ((⟨id, code⟩, res), after) ∧ low.code = code ∧
      low.blocks = draft.blocks ∧ (∀ stmts exprs, ({ low with code := stmts }.addBlock exprs).Ready after) := by
  obtain ⟨hr, hl⟩ := hlw.alike h.toAlike
  refine ⟨(lower.run draft).2.code, (lower.run draft).1, (lower.run draft).2, { (lower.run planned).2 with code := [] },
    rfl, ?_, rfl, (hlw.extends draft).blocks, fun _ _ => ⟨⟨hl.values, hl.literals, rfl⟩, rfl⟩⟩
  rw [hr, hl.code]
  rfl

/-- The block of a test holds the expression that is planned. -/
theorem lowerTest_run (scope : Scope) (cond : Expr) {draft planned : Draft} (h : draft.Ready planned) :
    ∃ code val low after, (lowerTest scope cond).run draft = ((draft.blocks.length, val), low) ∧
      (planRoot cond.info.id (lowerValue scope cond)).run planned = ((⟨cond.info.id, code⟩, val), after) ∧
      low.blocks = draft.blocks.push ⟨code, [cond.info.id], none⟩ ∧ low.Ready after := by
  obtain ⟨code, val, low, after, hrun, hp, hc, hb, hr⟩ := planRoot_run (additive_lowerValue scope cond) cond.info.id h
  refine ⟨code, val, low.addBlock [cond.info.id], after, ?_, hp, ?_, hr low.code _⟩
  · have ht : (lowerTest scope cond).run draft =
        ((((lowerValue scope cond).run draft).2.blocks.nextId, ((lowerValue scope cond).run draft).1),
          ((lowerValue scope cond).run draft).2.addBlock [cond.info.id]) := rfl
    rw [ht, hrun, ← hb]
    rfl
  · rw [addBlock, hc, hb]

theorem blocks_addBlock_setTerminator (draft : Draft) (exprs : List Source.ExprId) (term : Terminator) :
    ((draft.addBlock exprs).setTerminator draft.blocks.length term).blocks = draft.blocks.push ⟨draft.code, exprs, some term⟩ :=
  closeAt_push draft.blocks ⟨draft.code, exprs, none⟩ term

/-! ## Statements -/

/-- The statement, lowered with a break going to `exit`, adds blocks that realize what it is planned to be. -/
def StmtRealizes (scope : Scope) (stmt : Stmt) (exit : Option BlockId) : Prop :=
  ∀ draft planned : Draft, draft.Ready planned → ∃ segment plan low after, (lowerStmt scope stmt exit).run draft = (segment, low) ∧
    (planStmt scope stmt).run planned = (plan, after) ∧
    Lowers draft.blocks low.blocks segment (fun blocks => plan.Realized blocks exit) ∧ low.Ready after

/-- The statements, lowered behind a segment, continue it with blocks that realize what they are planned to be. -/
def StmtsRealize (scope : Scope) (stmts : List Stmt) (exit : Option BlockId) : Prop :=
  ∀ (draft planned : Draft) (base : Table DraftBlock) (segment : Segment) (R : Table Block → BlockId → BlockId → Prop),
    draft.Ready planned → Lowers base draft.blocks segment R → ∃ whole plans low after,
      (lowerStmts scope stmts exit segment).run draft = (whole, low) ∧
      (planStmts scope stmts).run planned = (plans, after) ∧
      Lowers base low.blocks whole
        (fun blocks first next => ∃ middle, R blocks first middle ∧ Plan.AllRealized blocks plans exit middle next) ∧
      low.Ready after

/-- The negative side of a branch adds blocks that realize what it is planned to be and go on with the block `next`. -/
def ElseRealizes (scope : Scope) (neg : Option Stmt) (exit : Option BlockId) : Prop :=
  ∀ (draft planned : Draft) (next : BlockId), draft.Ready planned → ∃ first plan low after,
    (lowerElse scope neg exit next).run draft = (first, low) ∧
    (planElse scope neg).run planned = (plan, after) ∧
    Sealed draft.blocks low.blocks (fun blocks => Plan.ElseRealized blocks plan exit first next) ∧ low.Ready after

theorem realizes_emptyBlock (scope : Scope) (loc : Location) (exit : Option BlockId) : StmtRealizes scope (.block loc []) exit := by
  intro draft planned h
  refine ⟨.single draft.blocks.length, .block [], draft.addBlock [], planned, rfl, rfl, ?_, h.newBlock []⟩
  rw [h.blocks_newBlock]
  exact lowers_push _ _

variable {scope : Scope} {exit : Option BlockId}

theorem realizes_block {stmt : Stmt} {rest : List Stmt} (loc : Location)
    (hs : StmtRealizes scope stmt exit) (hrs : StmtsRealize scope rest exit) :
    StmtRealizes scope (.block loc (stmt :: rest)) exit := by
  intro draft planned h
  obtain ⟨segment, plan, low, after, hl, hp, hls, hr⟩ := hs draft planned h
  obtain ⟨whole, plans, lowered', after', hl', hp', hls', hr'⟩ := hrs low after draft.blocks segment _ hr hls
  refine ⟨whole, .block (plan :: plans), lowered', after', ?_, ?_, ?_, hr'⟩
  · rw [lowerStmt, run_bind hl, hl']
  · rw [planStmt, planStmts, run_bind (by rw [run_bind hp, run_bind hp', run_pure]), run_pure]
  · exact hls'

section

variable (loc : Location) (cond : Expr)

theorem realizes_branch {pos : Stmt} {neg : Option Stmt} (hps : StmtRealizes scope pos exit)
    (hn : ElseRealizes scope neg exit) : StmtRealizes scope (.branch loc cond pos neg) exit := by
  intro draft planned h
  obtain ⟨code, val, tested, planned₁, ht, hp₁, hb₁, hr₁⟩ := lowerTest_run scope cond h
  obtain ⟨segment, plan, lowered₂, planned₂, hl₂, hp₂, hls₂, hr₂⟩ := hps _ _ (hr₁.newBlock [])
  obtain ⟨other, otherPlan, lowered₃, planned₃, hl₃, hp₃, hsl₃, hr₃⟩ :=
    hn _ _ tested.blocks.length (hr₂.connect segment.last tested.blocks.length)
  rw [hr₁.blocks_newBlock] at hls₂
  refine ⟨⟨draft.blocks.length, tested.blocks.length⟩, .branch ⟨cond.info.id, code⟩ val plan otherPlan,
    lowered₃.setTerminator draft.blocks.length (.branch val segment.first other), planned₃, ?_, ?_, ?_,
    hr₃.terminate _ _⟩
  · rw [lowerStmt, run_bind ht, run_bind (run_newBlock []), run_bind hl₂, run_bind (run_connect _ _),
      run_bind hl₃, run_bind (run_terminate _ _), run_pure]
  · rw [planStmt, run_bind hp₁, run_bind hp₂, run_bind hp₃, run_pure]
  · -- both sides are sealed once they go on with the block after the branch; then the test gets its two sides
    have hs := ((hls₂.seal tested.blocks.length).trans hsl₃).lowers 0
    rw [hb₁] at hs ⊢
    refine (hs.close (.branch val segment.first other)).mono fun blocks next hb => ?_
    obtain ⟨hf, ha, hth, he⟩ := hb
    exact ⟨segment.first, other, _, hf, ha, hth, he⟩

theorem realizes_whileLoop {body : Stmt} (hbd : ∀ exit, StmtRealizes scope body exit) (exit : Option BlockId) :
    StmtRealizes scope (.whileLoop loc cond body) exit := by
  intro draft planned h
  obtain ⟨code, val, tested, planned₁, ht, hp₁, hb₁, hr₁⟩ := lowerTest_run scope cond h
  obtain ⟨segment, plan, lowered₂, planned₂, hlw₂, hp₂, hl₂, hr₂⟩ := hbd (some tested.blocks.length) _ _ (hr₁.newBlock [])
  rw [hr₁.blocks_newBlock] at hl₂
  refine ⟨⟨draft.blocks.length, tested.blocks.length⟩, .whileLoop ⟨cond.info.id, code⟩ val plan,
    (lowered₂.connectBlocks segment.last draft.blocks.length).setTerminator draft.blocks.length
      (.branch val segment.first tested.blocks.length), planned₂, ?_, ?_, ?_, (hr₂.connect _ _).terminate _ _⟩
  · rw [lowerStmt, run_bind ht, run_bind (run_newBlock []), run_bind hlw₂, run_bind (run_connect _ _),
      run_bind (run_terminate _ _), run_pure]
  · rw [planStmt, run_bind hp₁, run_bind hp₂, run_pure]
  · have hrn := (hl₂.seal draft.blocks.length).lowers 0
    rw [hb₁] at hrn ⊢
    refine (hrn.close (.branch val segment.first _)).mono fun blocks next hb => ?_
    obtain ⟨hf, hd, hrl⟩ := hb
    exact ⟨segment.first, _, hf, hd, hrl⟩

theorem realizes_doLoop {body : Stmt} (negated : Bool) (hbd : ∀ exit, StmtRealizes scope body exit) (exit : Option BlockId) :
    StmtRealizes scope (.doLoop loc body cond negated) exit := by
  intro draft planned h
  obtain ⟨segment, plan, lowered₁, planned₁, hlw₁, hp₁, hl₁, hr₁⟩ := hbd (some draft.blocks.length) _ _ (h.newBlock [])
  obtain ⟨code, val, tested, planned₂, ht, hp₂, hb₂, hr₂⟩ := lowerTest_run scope cond hr₁
  rw [h.blocks_newBlock] at hl₁
  let sides : Terminator :=
    if negated then .branch val draft.blocks.length segment.first else .branch val segment.first draft.blocks.length
  refine ⟨⟨segment.first, draft.blocks.length⟩, .doLoop plan ⟨cond.info.id, code⟩ val negated,
    (tested.connectBlocks segment.last lowered₁.blocks.length).setTerminator lowered₁.blocks.length sides, planned₂,
    ?_, ?_, ?_, (hr₂.connect _ _).terminate _ _⟩
  · rw [lowerStmt, run_bind (run_newBlock []), run_bind hlw₁, run_bind ht, run_bind (run_connect _ _),
      run_bind (run_terminate _ _), run_pure]
  · rw [planStmt, run_bind hp₁, run_bind hp₂, run_pure]
  · have hcn := hl₁.seal lowered₁.blocks.length
    have hrw : ((tested.connectBlocks segment.last lowered₁.blocks.length).setTerminator lowered₁.blocks.length sides).blocks
        = (connectAt lowered₁.blocks segment.last lowered₁.blocks.length).push ⟨code, [cond.info.id], some sides⟩ := by
      have hcl := closeAt_push (connectAt lowered₁.blocks segment.last lowered₁.blocks.length) ⟨code, [cond.info.id], none⟩ sides
      rw [← connectAt_push _ hl₁.last_lt, ← hb₂, length_connectAt] at hcl
      exact hcl
    rw [hrw]
    refine ((hcn.push ⟨code, [cond.info.id], some sides⟩ rfl).lowers segment.first).mono fun blocks next hb => ?_
    obtain ⟨hd, hrl, _, hc⟩ := hb
    rw [length_connectAt] at hc
    exact ⟨lowered₁.blocks.length, draft.blocks.length, hc, hd, hrl⟩

end

section

variable (scope : Scope) (loc : Location)

theorem realizes_breakLoop (exit : Option BlockId) : StmtRealizes scope (.breakLoop loc) exit := by
  intro draft planned h
  cases exit with
  | none =>
    refine ⟨.single draft.blocks.length, .breakLoop,
      (draft.addBlock []).addError .unexpectedBreak loc "`break` outside of a loop", planned, rfl, rfl, ?_,
      (h.newBlock []).error _ _ _⟩
    rw [addError, h.blocks_newBlock]
    exact lowers_push _ _
  | some exit =>
    refine ⟨.single draft.blocks.length, .breakLoop, (draft.addBlock []).setTerminator draft.blocks.length (.jump exit),
      planned, rfl, rfl, ?_, (h.newBlock []).terminate _ _⟩
    rw [blocks_addBlock_setTerminator, h.code_nil]
    exact lowers_push _ _

theorem realizes_returnValue (val : Option Expr) (exit : Option BlockId) : StmtRealizes scope (.returnValue loc val) exit := by
  intro draft planned h
  cases val with
  | none =>
    refine ⟨.single draft.blocks.length, .returnValue none,
      (draft.addBlock []).setTerminator draft.blocks.length (.jump sink), planned, rfl, rfl, ?_,
      (h.newBlock []).terminate _ _⟩
    rw [blocks_addBlock_setTerminator, h.code_nil]
    exact lowers_push _ _
  | some val =>
    obtain ⟨code, src, low, after, hrun, hp, hc, hb, hrd⟩ := planRoot_run (additive_lowerSource scope val) val.info.id h
    let store : Statement := ⟨.assign scope.returnValue src, val.info.location⟩
    refine ⟨.single low.blocks.length, .returnValue (some (⟨val.info.id, code⟩, store)),
      ((low.addStatement store).addBlock [val.info.id]).setTerminator low.blocks.length (.jump sink), after,
      ?_, ?_, ?_, (hrd _ _).terminate _ _⟩
    · rw [lowerStmt, lowerReturn]
      exact run_bind hrun
    · rw [planStmt, run_bind hp, run_pure]
    · have hr := blocks_addBlock_setTerminator (low.addStatement store) [val.info.id] (.jump sink)
      simp only [addStatement, hc, hb] at hr ⊢
      rw [hr]
      exact lowers_push _ _

theorem realizes_expression (val : Expr) (exit : Option BlockId) : StmtRealizes scope (.expression loc val) exit := by
  intro draft planned h
  obtain ⟨code, res, low, after, hrun, hp, hc, hb, hr⟩ := planRoot_run (additive_lowerExpr scope val false) val.info.id h
  refine ⟨.single low.blocks.length, .expression ⟨val.info.id, code⟩, low.addBlock [val.info.id], after, ?_, ?_, ?_, hr low.code _⟩
  · rw [lowerStmt, run_bind hrun, run_bind (run_newBlock _), run_pure]
  · rw [planStmt, run_bind hp, run_pure]
  · rw [addBlock, hb, hc]
    exact lowers_push _ _

end

mutual

/-- Lowering a statement adds blocks that realize what it is planned to be. -/
theorem stmtRealizes (scope : Scope) : ∀ (stmt : Stmt) (exit : Option BlockId), StmtRealizes scope stmt exit
  | .block loc [], exit => realizes_emptyBlock scope loc exit
  | .block loc (stmt :: rest), exit =>
    realizes_block loc (stmtRealizes scope stmt exit) (stmtsRealize scope rest exit)
  | .branch loc cond pos neg, exit =>
    realizes_branch loc cond (stmtRealizes scope pos exit) (elseRealizes scope neg exit)
  | .whileLoop loc cond body, exit => realizes_whileLoop loc cond (stmtRealizes scope body) exit
  | .doLoop loc body cond negated, exit =>
    realizes_doLoop loc cond negated (stmtRealizes scope body) exit
  | .breakLoop loc, exit => realizes_breakLoop scope loc exit
  | .returnValue loc val, exit => realizes_returnValue scope loc val exit
  | .expression loc val, exit => realizes_expression scope loc val exit

/-- Lowering statements behind a segment continues it with blocks that realize what they are planned to be. -/
theorem stmtsRealize (scope : Scope) : ∀ (statements : List Stmt) (exit : Option BlockId), StmtsRealize scope statements exit
  | [], exit => by
    intro draft planned base segment R h hl
    refine ⟨segment, [], draft, planned, rfl, rfl, ?_, h⟩
    exact hl.mono fun blocks next hb => ⟨next, hb, rfl⟩
  | statement :: rest, exit => by
    intro draft planned base segment R h hl
    obtain ⟨next, plan, lowered₁, planned₁, hlw₁, hp₁, hl₁, hr₁⟩ := stmtRealizes scope statement exit draft planned h
    obtain ⟨whole, plans, lowered₂, planned₂, hlw₂, hp₂, hl₂, hr₂⟩ :=
      stmtsRealize scope rest exit _ _ base _ _ (hr₁.connect segment.last next.first) (hl.append hl₁)
    refine ⟨whole, plan :: plans, lowered₂, planned₂, ?_, ?_, ?_, hr₂⟩
    · rw [lowerStmts, run_bind hlw₁, run_bind (run_connect _ _), hlw₂]
    · rw [planStmts, run_bind hp₁, run_bind hp₂, run_pure]
    · refine hl₂.mono fun blocks last hb => ?_
      obtain ⟨mid, ⟨between, hbf, hp⟩, hps⟩ := hb
      exact ⟨between, hbf, mid, hp, hps⟩

/-- Lowering the negative side of a branch adds blocks that realize what it is planned to be. -/
theorem elseRealizes (scope : Scope) : ∀ (neg : Option Stmt) (exit : Option BlockId), ElseRealizes scope neg exit
  | none, exit => by
    intro draft planned next h
    exact ⟨next, none, draft, planned, rfl, rfl, sealed_self _ fun _ => rfl, h⟩
  | some neg, exit => by
    intro draft planned next h
    obtain ⟨segment, plan, low, after, hl, hp, hls, hr⟩ := stmtRealizes scope neg exit draft planned h
    refine ⟨segment.first, some plan, low.connectBlocks segment.last next, after, ?_, ?_, hls.seal next, hr.connect _ _⟩
    · rw [lowerElse, run_bind hl, run_bind (run_connect _ _), run_pure]
    · rw [planElse, run_bind hp, run_pure]

end

/-! ## Function bodies -/

/-- What a function body is planned to be. -/
def planBody (name : String) (ret : TypeId) (declared : List Source.Variable) (body : Stmt) (literals : Table Literal)
    (diags : Diagnostics) : Plan :=
  ((planStmt (scopeOf name declared) body).run (startDraft (declaredValues ret declared) literals diags)).1

/-- The graph of a function body realizes the plan and goes on to the sink, which does nothing but leave. -/
theorem realized_draftBody (name : String) (ret : TypeId) (params locals : List Source.Variable) (body : Stmt)
    (literals : Table Literal) (diags : Diagnostics) :
    let graph := (draftBody name ret params locals body literals diags).1
    (planBody name ret (params ++ locals) body literals diags).Realized graph.blocks none graph.entry
      Draft.sink ∧ Bare graph.blocks Draft.sink .sink := by
  let start := startDraft (declaredValues ret (params ++ locals)) literals diags
  obtain ⟨segment, plan, low, after, hl, hp, hls, -⟩ :=
    stmtRealizes (scopeOf name (params ++ locals)) body none start start ⟨⟨rfl, rfl, rfl⟩, rfl⟩
  have hs := hls.seal Draft.sink
  have hrun : (lowerToSink (scopeOf name (params ++ locals)) body).run start =
      (segment.first, low.connectBlocks segment.last Draft.sink) := by
    rw [lowerToSink, run_bind hl, run_bind (run_connect _ _), run_pure]
  have hb : (draftBody name ret params locals body literals diags).1.blocks =
      (connectAt low.blocks segment.last Draft.sink).map DraftBlock.close := by
    rw [draftBody, hrun]
    rfl
  have he : (draftBody name ret params locals body literals diags).1.entry = segment.first := by
    rw [draftBody, hrun]
  have hpl : planBody name ret (params ++ locals) body literals diags = plan := congrArg Prod.fst hp
  simp only [hb, he, hpl]
  constructor
  · exact hs.holds _ Draft.sink fun id _ _ => List.getElem?_map
  · rw [Bare, List.getElem?_map, hs.kept Draft.sink Nat.zero_lt_one]
    rfl

theorem tests_iterate_step_le (blocks : Table Block) (oracle : Nat → Bool) (n : Nat) (walk : Walk) :
    ((Walk.step blocks oracle)^[n] walk).tests ≤ walk.tests + n := by
  induction n with
  | zero => exact le_refl _
  | succ n ih =>
    rw [Function.iterate_succ_apply']
    have hs : ∀ walk : Walk, (walk.step blocks oracle).tests ≤ walk.tests + 1 := by
      intro walk
      unfold Walk.step
      split
      · exact Nat.le_succ _
      · split
        · rename_i block _
          cases ht : block.terminator <;> simp [Walk.pass, ht, Terminator.condition?]
        · exact Nat.le_succ _
    have := hs ((Walk.step blocks oracle)^[n] walk)
    omega

/-- A body that realizes a plan and then leaves does what the execution of the plan does. -/
theorem agree_of_realized {body : Body} {plan : Plan} (hr : plan.Realized body.blocks none body.entry body.sink)
    (hsn : Bare body.blocks body.sink .sink) (hz : body.sink = sink) (oracle : Nat → Bool) :
    ((body.run oracle).only Event.isContent).Agree (plan.run oracle) := by
  refine (Run.agree_of_catchUp ((body.steady_run oracle).only _) fun rounds => ?_).symm
  obtain ⟨n, id, hs, hw⟩ := exec_lands rounds plan none body.entry body.sink ⟨.before body.entry, 0, []⟩ ⟨0, []⟩ hr ⟨rfl, rfl, rfl⟩
  -- whoever stands in front of the sink leaves with the next step
  have hl : id = body.sink → ((plan.exec oracle rounds false ⟨0, []⟩).1 ≠ .cut) →
      ∃ m, (rounds ≤ m ∨ ((body.run oracle).only Event.isContent m).ended = true) ∧
        plan.run oracle rounds = (body.run oracle).only Event.isContent m := by
    rintro rfl hcut
    have hst : Walk.step body.blocks oracle ((Walk.step body.blocks oracle)^[n] ⟨.before body.entry, 0, []⟩) = _ :=
      Walk.step_of_before hs.place hsn
    have hp : (body.walk oracle (n + 1)).place = .left body.sink := by
      rw [Body.walk_succ, Body.walk, hst]
      rfl
    have he : (body.walk oracle (n + 1)).events.filter Event.isContent = (plan.exec oracle rounds false ⟨0, []⟩).2.events := by
      rw [Body.walk_succ, Body.walk, hst]
      simp [Walk.pass, filter_isContent_events, Terminator.condition?, hs.events]
    refine ⟨n + 1, Or.inr ?_, ?_⟩
    · simp [Run.only, Body.run, hp]
    · simp [Run.only, Body.run, hp, he, Plan.run, hcut]
  simp only [Option.isSome_none] at hw hs
  cases hc : (plan.exec oracle rounds false ⟨0, []⟩).1 with
  | normal =>
    rw [hc] at hw
    exact hl hw (by simp [hc])
  | broke =>
    rw [hc] at hw
    cases hw
  | returned =>
    rw [hc] at hw
    exact hl (hw.trans hz.symm) (by simp [hc])
  | cut =>
    rw [hc] at hw
    have ht := tests_iterate_step_le body.blocks oracle n ⟨.before body.entry, 0, []⟩
    rw [hs.tests] at ht
    refine ⟨n, Or.inl ?_, ?_⟩
    · simp only at hw ht
      omega
    · simp [Run.only, Body.run, Body.walk, hs.place, hs.events, Plan.run, hc]

/-- Lowering a function body keeps its flow of control. Whatever the tests find, a walk through the graph evaluates the
expressions, executes the statements and makes the tests that the structured execution of the body does, in the same order;
and it leaves through the sink exactly if the execution comes to an end. -/
theorem lowerBody_agrees (program : Source.Program) (function : Source.Function) (parameters locals : List Source.Variable)
    (body : Stmt) (lowering : Lowering) (returnType : TypeId) (htype : returnTypeOf program function = .ok returnType) :
    ∃ graph after, lowerBody program function parameters locals body lowering = .ok (graph, after) ∧
      ∀ oracle, ((graph.run oracle).only Event.isContent).Agree ((planBody function.symbol.name returnType
        (parameters ++ locals) body lowering.literals lowering.diagnostics).run oracle) := by
  let drafted := draftBody function.symbol.name returnType parameters locals body lowering.literals lowering.diagnostics
  have hsound : drafted.1.Sound drafted.2.literals := sound_draftBody ..
  obtain ⟨hrealized, hsink⟩ := realized_draftBody function.symbol.name returnType parameters locals body lowering.literals
    lowering.diagnostics
  obtain ⟨graph, order, hprune, hpruned⟩ := Body.prune_eq_ok hsound.wired
  refine ⟨graph, { lowering with literals := drafted.2.literals, diagnostics := drafted.2.diagnostics }, ?_, fun oracle => ?_⟩
  · simp only [lowerBody, htype, bind, Except.bind]
    rw [show (draftBody _ _ _ _ _ _ _).1.prune = .ok graph from hprune]
    rfl
  · rw [hpruned.only_content_run]
    exact agree_of_realized hrealized hsink rfl oracle

/-- The local `x` of the function below. -/
def countdownLocal : Source.Variable := ⟨7, ⟨"x", .unknown⟩, 1⟩

/-- The body `while (x) { if (x == 3) break; x--; } return x.next;`. -/
def countdownBody : Stmt :=
  let x (id : Source.ExprId) : Expr := .variableRef ⟨id, 1, .unknown⟩ 7
  .block .unknown [.whileLoop .unknown (x 0) (.block .unknown
        [.branch .unknown (.binary ⟨3, 1, .unknown⟩ .equal (x 1) (.literal ⟨2, 1, .unknown⟩ (.int 3))) (.breakLoop .unknown) none,
        .expression .unknown (.count ⟨5, 1, .unknown⟩ .decrement .after (x 4))]),
    .returnValue .unknown (some (.member ⟨8, 1, .unknown⟩ (x 6) (.literal ⟨7, 1, .unknown⟩ (.string "next"))))]

/-- The function `main` with that body. -/
def countdownMain : Source.Function :=
  ⟨⟨"main", .unknown⟩, 0, .internal, false, .defined [] [countdownLocal] countdownBody⟩

/-- The program that consists of that function. -/
def countdown : Source.Program := ⟨[], ⟨[.function [] 1, .dynamic]⟩, [countdownMain], [], some 0⟩

/-- The loop that is left early runs in the graph as it is written. -/
theorem lowerBody_agrees_countdown : returnTypeOf countdown countdownMain = .ok 1 ∧
    ∃ graph after, lowerBody countdown countdownMain [] [countdownLocal] countdownBody ⟨[], [], []⟩ = .ok (graph, after) ∧
      ∀ oracle, ((graph.run oracle).only Event.isContent).Agree ((planBody "main" 1 [countdownLocal] countdownBody [] []).run oracle) :=
  ⟨rfl, lowerBody_agrees countdown countdownMain [] [countdownLocal] countdownBody ⟨[], [], []⟩ 1 rfl⟩

end TagAsm.Lower
