import TagAsm.Proofs.LineLabels

/-!
# Breaks outside of loops

A break that lies in no loop of its function is reported where it stands, and is lowered like an empty block. So lowering a program
comes to the same, but for those reports, as lowering the program with such breaks mended: each replaced by an empty block.
-/

namespace TagAsm.Source

mutual

/-- Where the breaks of a statement stand that lie in no loop, in the order of the source. -/
def Stmt.strayBreaks (inLoop : Bool) : Stmt → List Location
  | .block _ stmts => strayBreaksOf inLoop stmts
  | .branch _ _ pos neg => pos.strayBreaks inLoop ++ strayBreaksOfElse inLoop neg
  | .whileLoop _ _ body | .doLoop _ body _ _ => body.strayBreaks true
  | .breakLoop loc => if inLoop then [] else [loc]
  | .returnValue .. | .expression .. => []

def strayBreaksOf (inLoop : Bool) : List Stmt → List Location
  | [] => []
  | statement :: rest => statement.strayBreaks inLoop ++ strayBreaksOf inLoop rest

def strayBreaksOfElse (inLoop : Bool) : Option Stmt → List Location
  | none => []
  | some neg => neg.strayBreaks inLoop

end

mutual

/-- The statement with an empty block for each break that lies in no loop. -/
def Stmt.mend (inLoop : Bool) : Stmt → Stmt
  | .block loc stmts => .block loc (mendAll inLoop stmts)
  | .branch loc cond pos neg =>
    .branch loc cond (pos.mend inLoop) (mendElse inLoop neg)
  | .whileLoop loc cond body => .whileLoop loc cond (body.mend true)
  | .doLoop loc body cond negated => .doLoop loc (body.mend true) cond negated
  | .breakLoop loc => if inLoop then .breakLoop loc else .block loc []
  | .returnValue loc value => .returnValue loc value
  | .expression loc value => .expression loc value

def mendAll (inLoop : Bool) : List Stmt → List Stmt
  | [] => []
  | statement :: rest => statement.mend inLoop :: mendAll inLoop rest

def mendElse (inLoop : Bool) : Option Stmt → Option Stmt
  | none => none
  | some neg => some (neg.mend inLoop)

end

/-- Where the breaks of a function stand that lie in no loop. -/
def Function.strayBreaks (fn : Function) : List Location :=
  match fn.kind with
  | .defined _ _ body => body.strayBreaks false
  | .declared | .imported .. => []

/-- The function with an empty block for each break that lies in no loop. -/
def Function.mend (fn : Function) : Function :=
  match fn.kind with
  | .defined parameters locals body => { fn with kind := .defined parameters locals (body.mend false) }
  | .declared | .imported .. => fn

/-- The program with an empty block for each break that lies in no loop. -/
def Program.mend (prog : Program) : Program := { prog with functions := prog.functions.map Function.mend }

end TagAsm.Source

namespace TagAsm.Lower

open TagAsm.Flow List
open Select (Both)
open Source (Stmt Expr)

/-- The error about a break that lies in no loop. -/
def strayBreak (loc : Location) : Diagnostic :=
  .error .lowering .unexpectedBreak loc "`break` outside of a loop"

/-- Whether an error is about a break. -/
def isBreak (diag : Diagnostic) : Bool := diag.kind = .unexpectedBreak

/-- Beside what was reported at the `start`, the second list lacks the reports about the `breaks`. -/
def LacksBreaks (start : Diagnostics) (breaks : List Location) (reports others : Diagnostics) : Prop :=
  ∃ added, reports = start ++ added ∧ others = start ++ added.filter (!isBreak ·) ∧ added.filter isBreak = breaks.map strayBreak

/-- Two drafts that differ in nothing but what was reported. -/
structure Draft.Lacks (start : Diagnostics) (breaks : List Location) (draft other : Draft) : Prop where
  same : other = { draft with diagnostics := other.diagnostics }
  reports : LacksBreaks start breaks draft.diagnostics other.diagnostics

section

variable {start : Diagnostics} {breaks : List Location} {draft other : Draft}

theorem Draft.Lacks.addError (h : Lacks start breaks draft other) {kind : DiagnosticKind} (hk : kind ≠ .unexpectedBreak)
    (loc : Location) (msg : String) :
    Lacks start breaks (draft.addError kind loc msg) (other.addError kind loc msg) := by
  obtain ⟨hs, added, hd, ho, hb⟩ := h
  have hq : isBreak (.error .lowering kind loc msg) = false := decide_eq_false hk
  refine ⟨by rw [hs]; rfl, added ++ [.error .lowering kind loc msg], ?_, ?_, ?_⟩
  · simp [Draft.addError, hd]
  · simp [Draft.addError, ho, hq]
  · simpa [hq] using hb

theorem Draft.Lacks.addBreak (h : Lacks start breaks draft other) (loc : Location) : Lacks start (breaks ++ [loc])
    (draft.addError .unexpectedBreak loc "`break` outside of a loop") other := by
  obtain ⟨hs, added, hd, ho, hbs⟩ := h
  have hb : isBreak (strayBreak loc) = true := rfl
  refine ⟨hs, added ++ [strayBreak loc], ?_, ?_, ?_⟩
  · simp [Draft.addError, hd, strayBreak]
  · simp [ho, hb]
  · simp [hbs, hb]

end

/-- The first action does what the second does, and reports the `breaks` beside. -/
def Mends {α : Type} (breaks : List Location) (act mended : LowerM α) : Prop :=
  ∀ start before draft other, Draft.Lacks start before draft other →
    (mended.run other).1 = (act.run draft).1 ∧ Draft.Lacks start (before ++ breaks) (act.run draft).2 (mended.run other).2

namespace Mends

variable {α β : Type} {first later : List Location} {act mended : LowerM α} {next next' : α → LowerM β}

theorem bind (hf : Mends first act mended) (hn : ∀ a, Mends later (next a) (next' a)) :
    Mends (first ++ later) (act >>= next) (mended >>= next') := by
  intro start before draft other h
  obtain ⟨hr, hs⟩ := hf start before draft other h
  have hrun : ∀ (step : LowerM α) (rest : α → LowerM β) (d : Draft), (step >>= rest).run d = (rest (step.run d).1).run (step.run d).2 :=
    fun _ _ _ => rfl
  rw [hrun, hrun, hr, ← append_assoc]
  exact hn _ start _ _ _ hs

/-- What comes before the first break reports none. -/
theorem quiet_bind (hf : Mends [] act mended) (hn : ∀ a, Mends later (next a) (next' a)) :
    Mends later (act >>= next) (mended >>= next') := hf.bind hn

/-- What comes after the last break reports none. -/
theorem bind_quiet (hf : Mends first act mended) (hn : ∀ a, Mends [] (next a) (next' a)) :
    Mends first (act >>= next) (mended >>= next') := by
  simpa using hf.bind hn

/-- An action that neither reads nor writes diagnostics. -/
theorem of_silent (h : ∀ draft diagnostics, act.run { draft with diagnostics } =
    ((act.run draft).1, { (act.run draft).2 with diagnostics }) ∧ (act.run draft).2.diagnostics = draft.diagnostics) :
    Mends [] act act := by
  rintro start before draft other ⟨hs, added, hd, ho, hb⟩
  obtain ⟨hrun, hk⟩ := h draft other.diagnostics
  rw [hs, hrun]
  exact ⟨rfl, rfl, added, hk.trans hd, ho, by simpa using hb⟩

theorem of_additive (h : Additive act) : Mends [] act act := by
  induction h with
  | error hk loc msg =>
    intro start before draft other h
    rw [append_nil]
    exact ⟨rfl, h.addError hk loc msg⟩
  | bind _ _ ihfirst ihnext => exact ihfirst.bind ihnext
  | _ => exact of_silent fun _ _ => ⟨rfl, rfl⟩

end Mends

theorem mends_newBlock (exprs : List Source.ExprId) : Mends [] (newBlock exprs) (newBlock exprs) := .of_silent fun _ _ => ⟨rfl, rfl⟩

theorem mends_terminate (id : BlockId) (term : Terminator) : Mends [] (terminate id term) (terminate id term) :=
  .of_silent fun _ _ => ⟨rfl, rfl⟩

theorem mends_connect (id tgt : BlockId) : Mends [] (connect id tgt) (connect id tgt) := .of_silent fun _ _ => ⟨rfl, rfl⟩

theorem mends_pure {α : Type} (a : α) : Mends [] (pure a : LowerM α) (pure a) := .of_silent fun _ _ => ⟨rfl, rfl⟩

theorem mends_lowerTest (scope : Scope) (cond : Expr) : Mends [] (lowerTest scope cond) (lowerTest scope cond) :=
  .bind (.of_additive (additive_lowerValue scope cond)) fun _ => .bind (mends_newBlock _) fun _ => mends_pure _

theorem mends_lowerReturn (scope : Scope) (val : Option Expr) : Mends [] (lowerReturn scope val) (lowerReturn scope val) := by
  have hr : Mends [] (do
      let block ← newBlock (val.map (·.info.id)).toList
      terminate block (.jump Draft.sink)
      return Segment.single block) (do
      let block ← newBlock (val.map (·.info.id)).toList
      terminate block (.jump Draft.sink)
      return Segment.single block) :=
    .bind (mends_newBlock _) fun _ => .bind (mends_terminate _ _) fun _ => mends_pure _
  cases val with
  | none => exact .bind (mends_pure ()) fun _ => hr
  | some val =>
    exact .bind (.of_additive (.bind (additive_lowerSource scope val) fun _ => .emit _ _)) fun _ => hr

/-- A break outside of loops is reported, and is an empty block otherwise. -/
theorem mends_lowerBreak (loc : Location) : Mends [loc] (lowerBreak none loc) (return .single (← newBlock [])) :=
  .quiet_bind (mends_newBlock []) fun _ _ _ _ _ h => ⟨rfl, h.addBreak loc⟩

mutual

/-- Statements are lowered as if each break outside of loops were an empty block, which is reported beside. -/
theorem mends_lowerStmt (scope : Scope) : ∀ (stmt : Stmt) (exit : Option BlockId),
    Mends (stmt.strayBreaks exit.isSome) (lowerStmt scope stmt exit) (lowerStmt scope (stmt.mend exit.isSome) exit)
  | .block _ [], exit => .bind (mends_newBlock _) fun _ => mends_pure _
  | .block _ (stmt :: rest), exit =>
    .bind (mends_lowerStmt scope stmt exit) fun _ => mends_lowerStmts scope rest exit _
  | .branch _ cond pos neg, exit => by
    refine .quiet_bind (mends_lowerTest scope cond) ?_
    rintro ⟨test, val⟩
    exact .quiet_bind (mends_newBlock _) fun after => .bind (mends_lowerStmt scope pos exit) fun _ =>
      .quiet_bind (mends_connect _ _) fun _ => .bind_quiet (mends_lowerElse scope neg exit after) fun _ =>
        .bind (mends_terminate _ _) fun _ => mends_pure _
  | .whileLoop _ cond body, exit => by
    refine .quiet_bind (mends_lowerTest scope cond) ?_
    rintro ⟨test, val⟩
    exact .quiet_bind (mends_newBlock _) fun exit => .bind_quiet (mends_lowerStmt scope body (some exit)) fun _ =>
      .bind (mends_connect _ _) fun _ => .bind (mends_terminate _ _) fun _ => mends_pure _
  | .doLoop _ body cond negated, exit => by
    refine .quiet_bind (mends_newBlock _) fun exit => .bind_quiet (mends_lowerStmt scope body (some exit)) fun _ =>
      .bind (mends_lowerTest scope cond) ?_
    rintro ⟨test, val⟩
    exact .bind (mends_connect _ _) fun _ => .bind (mends_terminate _ _) fun _ => mends_pure _
  | .breakLoop loc, none => mends_lowerBreak loc
  | .breakLoop loc, some exit => .bind (mends_newBlock _) fun _ => .bind (mends_terminate _ _) fun _ => mends_pure _
  | .returnValue _ val, exit => mends_lowerReturn scope val
  | .expression _ val, exit =>
    .bind (.of_additive (additive_lowerExpr scope val false)) fun _ => .bind (mends_newBlock _) fun _ => mends_pure _

theorem mends_lowerStmts (scope : Scope) : ∀ (stmts : List Stmt) (exit : Option BlockId) (segment : Segment),
    Mends (Source.strayBreaksOf exit.isSome stmts) (lowerStmts scope stmts exit segment)
      (lowerStmts scope (Source.mendAll exit.isSome stmts) exit segment)
  | [], _, _ => mends_pure _
  | statement :: rest, exit, _ =>
    .bind (mends_lowerStmt scope statement exit) fun _ => .quiet_bind (mends_connect _ _) fun _ =>
      mends_lowerStmts scope rest exit _

theorem mends_lowerElse (scope : Scope) : ∀ (neg : Option Stmt) (exit : Option BlockId) (after : BlockId),
    Mends (Source.strayBreaksOfElse exit.isSome neg) (lowerElse scope neg exit after)
      (lowerElse scope (Source.mendElse exit.isSome neg) exit after)
  | none, _, _ => mends_pure _
  | some neg, exit, _ =>
    .bind_quiet (mends_lowerStmt scope neg exit) fun _ => .bind (mends_connect _ _) fun _ => mends_pure _

end

/-! ## Programs -/

/-- Two lowerings that differ in nothing but what was reported. -/
structure Lowering.Lacks (start : Diagnostics) (breaks : List Location) (lowering other : Lowering) : Prop where
  same : other = { lowering with diagnostics := other.diagnostics }
  reports : LacksBreaks start breaks lowering.diagnostics other.diagnostics

section

variable (prog : Source.Program) {start : Diagnostics} {breaks : List Location}

theorem draftBody_lacks (name : String) (ret : TypeId) (params locals : List Source.Variable) (body : Stmt)
    (literals : Table Literal) {diags rest : Diagnostics} (h : LacksBreaks start breaks diags rest) :
    (draftBody name ret params locals (body.mend false) literals rest).1 = (draftBody name ret params locals body literals diags).1 ∧
      Draft.Lacks start (breaks ++ body.strayBreaks false) (draftBody name ret params locals body literals diags).2
        (draftBody name ret params locals (body.mend false) literals rest).2 := by
  have hm : Mends (body.strayBreaks false) (lowerToSink (scopeOf name (params ++ locals)) body)
      (lowerToSink (scopeOf name (params ++ locals)) (body.mend false)) :=
    .bind_quiet (mends_lowerStmt _ body none) fun _ => .bind (mends_connect _ _) fun _ => mends_pure _
  have hb := hm start breaks (startDraft (declaredValues ret (params ++ locals)) literals diags)
    (startDraft (declaredValues ret (params ++ locals)) literals rest) ⟨rfl, h⟩
  unfold draftBody
  dsimp only
  generalize StateT.run (lowerToSink (scopeOf name (params ++ locals)) body)
    (startDraft (declaredValues ret (params ++ locals)) literals diags) = left at hb ⊢
  generalize StateT.run (lowerToSink (scopeOf name (params ++ locals)) (body.mend false))
    (startDraft (declaredValues ret (params ++ locals)) literals rest) = right at hb ⊢
  obtain ⟨entry, draft⟩ := left
  obtain ⟨entry', other⟩ := right
  obtain ⟨rfl : entry' = entry, hd : Draft.Lacks _ _ draft other⟩ := hb
  refine ⟨?_, hd⟩
  rw [hd.same]

variable {lowering other : Lowering}

theorem lowerBody_lacks (h : Lowering.Lacks start breaks lowering other) (fn : Source.Function)
    (params locals : List Source.Variable) (body : Stmt) (kind : Source.FunctionKind) :
    Both (fun res result' => result'.1 = res.1 ∧ Lowering.Lacks start (breaks ++ body.strayBreaks false) res.2 result'.2)
      (lowerBody prog fn params locals body lowering)
      (lowerBody prog.mend { fn with kind } params locals (body.mend false) other) := by
  have hl : other.literals = lowering.literals := by rw [h.same]
  have hs : other.subroutines = lowering.subroutines := by rw [h.same]
  refine (Both.same (returnTypeOf prog fn)).bind ?_
  rintro ret _ rfl
  obtain ⟨hg, hd⟩ := draftBody_lacks fn.symbol.name ret params locals body lowering.literals h.reports
  dsimp only
  rw [hl, hs, hg]
  refine (Both.same _).bind ?_
  rintro graph _ rfl
  refine .result ⟨rfl, ?_, hd.reports⟩
  rw [hd.same]

theorem lowerFunction_lacks (h : Lowering.Lacks start breaks lowering other) (entry : Source.FunctionId × Source.Function) :
    Both (Lowering.Lacks start (breaks ++ entry.2.strayBreaks)) (lowerFunction prog lowering entry)
      (lowerFunction prog.mend other (entry.1, entry.2.mend)) := by
  obtain ⟨id, ⟨sym, ty, linkage, isMethod, kind⟩⟩ := entry
  have hp : ∀ (found : SubroutineKind × Lowering) (found' : SubroutineKind × Lowering) (breaks : List Location),
      found'.1 = found.1 ∧ Lowering.Lacks start breaks found.2 found'.2 →
      Lowering.Lacks start breaks
        { found.2 with subroutines := found.2.subroutines.push ⟨sym, ty, linkage, ownerOf prog id, found.1⟩ }
        { found'.2 with subroutines := found'.2.subroutines.push ⟨sym, ty, linkage, ownerOf prog id, found'.1⟩ } := by
    rintro found found' breaks ⟨hk, hs, hrp⟩
    refine ⟨?_, hrp⟩
    rw [hk, hs]
  cases kind with
  | defined params locals body =>
    refine Both.bind (Both.bind (lowerBody_lacks prog h _ params locals body _) fun res result' hr => ?_)
      fun found found' hf => .result (hp found found' _ hf)
    exact .result ⟨congrArg SubroutineKind.defined hr.1, hr.2⟩
  | declared | imported =>
    exact .result (hp (_, lowering) (_, other) _ ⟨rfl, by simpa [Source.Function.strayBreaks] using h⟩)

theorem lowerFunctions_lacks : ∀ (entries : List (Source.FunctionId × Source.Function)) {breaks : List Location}
    {lowering other : Lowering}, Lowering.Lacks start breaks lowering other →
    Both (Lowering.Lacks start (breaks ++ entries.flatMap (·.2.strayBreaks))) (entries.foldlM (lowerFunction prog) lowering)
      ((entries.map fun entry => (entry.1, entry.2.mend)).foldlM (lowerFunction prog.mend) other)
  | [], _, _, _, h => by
    rw [flatMap_nil, append_nil]
    exact .result h
  | entry :: rest, _, _, _, h => by
    rw [map_cons, foldlM_cons, foldlM_cons, flatMap_cons, ← append_assoc]
    exact (lowerFunction_lacks prog h entry).bind fun _ _ hn => lowerFunctions_lacks rest hn

end

section

variable (prog : Source.Program)

theorem entries_mend : prog.mend.functions.entries = prog.functions.entries.map fun entry => (entry.1, entry.2.mend) := by
  simp [Source.Program.mend, Table.entries, zipIdx_map, Function.comp_def]

theorem functionsWhere_mend {test : Source.Function → Bool} (h : ∀ fn : Source.Function, test fn.mend = test fn) :
    functionsWhere prog.mend test = functionsWhere prog test := by
  simp [functionsWhere, entries_mend, filter_map, Function.comp_def, h]

theorem mergeBelow_mend : mergeBelow prog.mend = mergeBelow prog := by
  have hm : ∀ id : Source.FunctionId, (return ((← prog.mend.function id).symbol, id) : Except Fault _) =
      (return ((← prog.function id).symbol, id) : Except Fault _) := by
    intro id
    rw [Source.Program.function, Source.Program.function, Source.Program.mend, Table.fetch, Table.fetch, getElem?_map]
    cases prog.functions[id]? with
    | none => rfl
    | some fn =>
      rw [Option.map_some, Source.Function.mend]
      cases fn.kind <;> rfl
  funext decl inherited state
  unfold mergeBelow
  simp only [hm]

theorem mergeClass_mend (fuel : Nat) : mergeClass prog.mend fuel = mergeClass prog fuel := by
  induction fuel with
  | zero => rfl
  | succ fuel ih =>
    funext path id state
    unfold mergeClass
    rw [ih, mergeBelow_mend]
    rfl

theorem lowerClasses_mend : lowerClasses prog.mend = lowerClasses prog := by
  have hc : lowerClass prog.mend = lowerClass prog := by
    funext acc entry
    unfold lowerClass
    rw [mergeClass_mend]
    rfl
  funext diags
  unfold lowerClasses
  rw [hc]
  rfl

end

/-- Classes are no matter of breaks. -/
theorem ClassesLowered.filter_isBreak {prog : Source.Program} {classes : List ClassLayout} {reports : Diagnostics}
    (h : ClassesLowered prog classes reports) : reports.filter isBreak = [] := by
  rw [filter_eq_nil_iff]
  intro report hr
  rcases h.report_cases hr with ⟨_, rfl⟩ | ⟨_, _, _, rfl⟩ <;> exact Bool.false_ne_true

theorem lowerClasses_lacks (prog : Source.Program) {start : Diagnostics} {breaks : List Location} {reports others : Diagnostics}
    (h : LacksBreaks start breaks reports others) :
    Both (fun res other => other.1 = res.1 ∧ LacksBreaks start breaks res.2 other.2)
      (lowerClasses prog reports) (lowerClasses prog others) := by
  obtain ⟨added, rfl, rfl, hb⟩ := h
  have hl := lowerClasses_attains prog
  rw [lowerClasses_eq_map, lowerClasses_eq_map prog (start ++ _)]
  cases hrun : lowerClasses prog [] with
  | error fault => exact .fault fault
  | ok res =>
    rw [hrun] at hl
    have hq := hl.filter_isBreak
    have hk : res.2.filter (!isBreak ·) = res.2 := by
      simpa [filter_eq_self, filter_eq_nil_iff] using hq
    exact .result ⟨rfl, added ++ res.2, by simp, by simp [hk], by simp [hb, hq]⟩

/-- Breaks that lie in no loop of their function are reported one by one, in the order of the functions and of the source, and but
for these reports the program is lowered as if each of them were an empty block. -/
theorem lowerProgram_strayBreaks (program : Source.Program) (diagnostics : Diagnostics) : Both (fun result mended => mended.1 = result.1 ∧
        LacksBreaks diagnostics (program.functions.flatMap (·.strayBreaks)) result.2 mended.2)
      (lowerProgram program diagnostics) (lowerProgram program.mend diagnostics) := by
  have hbreaks : program.functions.flatMap (·.strayBreaks) = program.functions.entries.flatMap (·.2.strayBreaks) := by
    conv_lhs => rw [← Table.map_snd_entries program.functions, flatMap_map]
  have hstart : Lowering.Lacks diagnostics [] ⟨[], [], diagnostics⟩ ⟨[], [], diagnostics⟩ := ⟨rfl, [], by simp, by simp, by simp⟩
  unfold lowerProgram
  rw [entries_mend, lowerClasses_mend, hbreaks]
  refine (lowerFunctions_lacks program program.functions.entries hstart).bind fun lowering other hlowering => ?_
  refine (lowerClasses_lacks program hlowering.reports).bind fun classes classes' hclasses => ?_
  refine .result ⟨?_, hclasses.2⟩
  have hliterals : other.literals = lowering.literals := by rw [hlowering.same]
  have hsubroutines : other.subroutines = lowering.subroutines := by rw [hlowering.same]
  dsimp only
  rw [hliterals, hsubroutines, hclasses.1]
  rw [functionsWhere_mend, functionsWhere_mend, functionsWhere_mend, functionsWhere_mend]
  · rfl
  all_goals rintro ⟨_, _, _, _, _ | _ | _⟩ <;> rfl

end TagAsm.Lower
