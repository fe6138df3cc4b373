import TagAsm.Proofs.Sequencing

/-!
# What drafts are like

While a body is lowered its draft grows and stays tidy: its blocks are in sequence and share no more than declared values, all that
they mention exists, no edge leads out of the draft, and no block tests an address. A statement makes blocks of the code that its
expressions were lowered to. Every operation on drafts keeps them tidy, so everything that is put together from them does, on its
error branches too.
-/

namespace TagAsm.Flow

/-- Codes that share no more than declared values. -/
def Apart (declared : Nat) (first rest : List Statement) : Prop :=
  ∀ val ∈ mentions first, val ∈ mentions rest → val < declared

theorem Apart.symm {declared : Nat} {first rest : List Statement} (h : Apart declared first rest) : Apart declared rest first :=
  fun val hr hf => h val hf hr

end TagAsm.Flow

namespace TagAsm.Lower

open TagAsm.Flow List
open Source (Stmt Expr)

/-! ## Blocks -/

/-- The statements of the blocks of a draft. -/
def Draft.rows (draft : Draft) : List (List Statement) := draft.blocks.map DraftBlock.statements

/-- A value that receives an address in no block. -/
structure Draft.Testable (draft : Draft) (val : ValueId) : Prop where
  lt : val < draft.values.length
  plain : ∀ row ∈ draft.rows, val ∉ references row

/-- A terminator of block `id` of a draft: it goes to blocks that exist, tests what may be tested, and leaves the body only from the
sink. -/
structure TerminatorSound (draft : Draft) (id : BlockId) (term : Terminator) : Prop where
  targets_lt : ∀ tgt ∈ term.successors, tgt < draft.blocks.length
  testable : ∀ cond ∈ term.condition?, draft.Testable cond
  leaves : term = .sink → id = Draft.sink

/-- The blocks are sound and apart, and no code is at hand. -/
structure Draft.Tidy (start : Start) (draft : Draft) : Prop extends draft.Numbered start where
  idle : draft.code = []
  rows : ∀ row ∈ draft.rows, CodeSound start draft row
  apart : draft.rows.Pairwise (Apart start.declared)
  terminators : ∀ (id : BlockId) (block : DraftBlock), draft.blocks[id]? = some block →
    ∀ term, block.terminator = some term → TerminatorSound draft id term
  sink : ∃ block : DraftBlock, draft.blocks[Draft.sink]? = some block ∧ block.terminator = some .sink

/-- Values, literals and errors were added at the end, and blocks that mention declared values and new ones. -/
structure Draft.Goes (start : Start) (draft later : Draft) : Prop where
  values : draft.values.length ≤ later.values.length
  literals : draft.literals <+: later.literals
  diagnostics : Diagnostics.Adds .lowering draft.diagnostics later.diagnostics
  rows : ∃ added, later.rows = draft.rows ++ added ∧ ∀ row ∈ added, ∀ val ∈ mentions row, val < start.declared ∨ draft.values.length ≤ val

/-- A block of the draft that is not the sink. -/
def Draft.Inner (draft : Draft) (id : BlockId) : Prop := id < draft.blocks.length ∧ id ≠ Draft.sink

variable {draft : Draft} {id : BlockId}

theorem terminatorSound_jump {tgt : BlockId} (h : tgt < draft.blocks.length) : TerminatorSound draft id (.jump tgt) :=
  ⟨fun _ ht => mem_singleton.mp ht ▸ h, fun _ hc => (nomatch hc), fun hs => (nomatch hs)⟩

/-- A branch on what may be tested to blocks of the draft. -/
theorem terminatorSound_branch {pos neg : BlockId} {cond : ValueId} (hcn : draft.Testable cond)
    (hp : pos < draft.blocks.length) (hn : neg < draft.blocks.length) :
    TerminatorSound draft id (.branch cond pos neg) := by
  refine ⟨fun tgt ht => ?_, fun _ hc => Option.some.inj hc ▸ hcn, fun hs => (nomatch hs)⟩
  rcases Terminator.mem_successors_branch.mp ht with rfl | rfl
  · exact hp
  · exact hn

namespace Draft

variable {start : Start} {draft later last : Draft}

theorem length_rows (draft : Draft) : draft.rows.length = draft.blocks.length := length_map _

theorem Goes.of_rows_eq (hv : later.values = draft.values) (hl : later.literals = draft.literals)
    (hd : Diagnostics.Adds .lowering draft.diagnostics later.diagnostics) (hr : later.rows = draft.rows) :
    draft.Goes start later :=
  ⟨le_of_eq (congrArg length hv.symm), hl ▸ prefix_refl _, hd, [], hr.trans (append_nil _).symm, forall_mem_nil _⟩

theorem Goes.trans (h : draft.Goes start later) (h' : later.Goes start last) : draft.Goes start last := by
  obtain ⟨first, hf, hn⟩ := h.rows
  obtain ⟨rest, hr, hn'⟩ := h'.rows
  refine ⟨h.values.trans h'.values, h.literals.trans h'.literals, h.diagnostics.trans h'.diagnostics, first ++ rest, ?_,
    forall_mem_append.mpr ⟨hn, ?_⟩⟩
  · rw [hr, hf, append_assoc]
  · exact fun row hrow val hv => (hn' row hrow val hv).imp_right h.values.trans

theorem Goes.blocks (h : draft.Goes start later) : draft.blocks.length ≤ later.blocks.length := by
  obtain ⟨added, ha, -⟩ := h.rows
  rw [← length_rows, ← length_rows, ha, length_append]
  exact Nat.le_add_right _ _

theorem Inner.mono {id : BlockId} (h : draft.Inner id) (hg : draft.Goes start later) : later.Inner id :=
  ⟨lt_of_lt_of_le h.1 hg.blocks, h.2⟩

variable {val : ValueId}

theorem Testable.mono (h : draft.Testable val) (hg : draft.Goes start later)
    (hl : ∀ row ∈ later.rows, CodeSound start later row) : later.Testable val := by
  refine ⟨lt_of_lt_of_le h.lt hg.values, fun row hrow hmem => ?_⟩
  have hge := (hl row hrow).sequenced.le_of_mem_references hmem
  obtain ⟨added, ha, hn⟩ := hg.rows
  rw [ha, mem_append] at hrow
  rcases hrow with hold | hnew
  · exact h.plain row hold hmem
  · rcases hn row hnew val (references_subset_mentions row hmem) with hd | hf
    · exact absurd hd (Nat.not_lt.mpr hge)
    · exact absurd h.lt (Nat.not_lt.mpr hf)

theorem Tidy.sink_lt (h : draft.Tidy start) : Draft.sink < draft.blocks.length := by
  obtain ⟨block, hb, -⟩ := h.sink
  exact (List.getElem?_eq_some_iff.mp hb).1

theorem Tidy.inOrder (h : draft.Tidy start) : draft.InOrder start draft.values.length := ⟨h.toNumbered, le_refl _, h.idle ▸ .nil⟩

theorem rows_addBlock (draft : Draft) (exprs : List Source.ExprId) : (draft.addBlock exprs).rows = draft.rows ++ [draft.code] := by
  simp [rows, addBlock, Table.push]

/-- A value that is declared or new receives no address in the blocks from before. -/
theorem Tidy.not_mem_references (h : draft.Tidy start) (hn : val < start.declared ∨ draft.values.length ≤ val)
    {row : List Statement} (hrow : row ∈ draft.rows) : val ∉ references row := by
  intro hmem
  rcases hn with hd | hf
  · exact absurd hd (Nat.not_lt.mpr ((h.rows row hrow).sequenced.le_of_mem_references hmem))
  · exact absurd ((h.rows row hrow).mentions_lt (references_subset_mentions row hmem)) (Nat.not_lt.mpr hf)

/-- What was added to the code at hand makes one more block. -/
theorem Tidy.addBlock (h : draft.Tidy start) (ha : draft.Adds start draft.values.length later)
    (hl : later.InOrder start draft.values.length) (exprs : List Source.ExprId) :
    (later.addBlock exprs).Tidy start ∧ draft.Goes start (later.addBlock exprs) := by
  obtain ⟨added, had, hn⟩ := ha.code
  rw [h.idle, nil_append] at had
  have hr : (later.addBlock exprs).rows = draft.rows ++ [later.code] := by
    rw [rows_addBlock, Draft.rows, ha.blocks]
    rfl
  have hg : draft.Goes start (later.addBlock exprs) :=
    ⟨ha.values, ha.literals, ha.diagnostics, [later.code], hr, forall_mem_singleton.mpr (had ▸ hn)⟩
  have hsn : ∀ row ∈ (later.addBlock exprs).rows, CodeSound start (later.addBlock exprs) row := by
    rw [hr]
    exact forall_mem_append.mpr ⟨fun row hrow => (h.rows row hrow).mono ha.values ha.literals,
      forall_mem_singleton.mpr ⟨hl.code.sound, hl.code.placed, hl.code.sequenced⟩⟩
  have hnm : (later.addBlock exprs).Numbered start := ⟨hl.declared_le, hl.returnValue_lt, hl.values_id, hl.temporaries_eq, hl.literals_id⟩
  refine ⟨⟨hnm, rfl, hsn, ?_, ?_, ?_⟩, hg⟩
  · rw [hr, pairwise_append]
    refine ⟨h.apart, pairwise_singleton _ _, fun row hrow code hcd val hv hmem => ?_⟩
    rw [mem_singleton.mp hcd, had] at hmem
    exact (hn val hmem).resolve_right (Nat.not_le.mpr ((h.rows row hrow).mentions_lt hv))
  -- every block is an old one or the new one, which is open
  · intro id block hb term htr
    have hold : draft.blocks[id]? = some block := by
      rcases Nat.lt_or_ge id later.blocks.length with hlt | hge
      · rwa [Draft.addBlock, Table.getElem?_push_of_lt hlt, ha.blocks] at hb
      · rw [Draft.addBlock, Table.push, getElem?_append_right hge] at hb
        rw [mem_singleton.mp (mem_of_getElem? hb)] at htr
        cases htr
    have hs := h.terminators id block hold term htr
    exact ⟨fun tgt ht => lt_of_lt_of_le (hs.targets_lt tgt ht) hg.blocks, fun cond hc => (hs.testable cond hc).mono hg hsn, hs.leaves⟩
  · obtain ⟨block, hb, htr⟩ := h.sink
    have hlt : Draft.sink < later.blocks.length := ha.blocks ▸ h.sink_lt
    exact ⟨block, (Table.getElem?_push_of_lt hlt).trans (ha.blocks ▸ hb), htr⟩

variable (h : draft.Tidy start)
include h

/-- What was evaluated for a test may be tested. -/
theorem Tidy.testable_addBlock (ha : draft.Adds start draft.values.length later)
    (hv : Passable start draft.values.length later val) (exprs : List Source.ExprId) :
    (later.addBlock exprs).Testable val := by
  refine ⟨hv.lt, ?_⟩
  rw [rows_addBlock, Draft.rows, ha.blocks]
  exact forall_mem_append.mpr ⟨fun row hrow => h.not_mem_references hv.near hrow, forall_mem_singleton.mpr hv.plain⟩

theorem Tidy.inner_addBlock (hb : later.blocks = draft.blocks) (exprs : List Source.ExprId) :
    (later.addBlock exprs).Inner later.blocks.nextId := by
  refine ⟨?_, ?_⟩
  · show later.blocks.length < (later.blocks.push _).length
    simp
  · rw [hb]
    exact Nat.ne_of_gt h.sink_lt

/-- Where tables and statements stay as they are, and blocks end as they may in the draft. -/
theorem Tidy.of_rows_eq (hv : later.values = draft.values) (htm : later.temporaries = draft.temporaries)
    (hl : later.literals = draft.literals) (hcd : later.code = draft.code) (hr : later.rows = draft.rows)
    (htn : ∀ (id : BlockId) (block : DraftBlock), later.blocks[id]? = some block →
      ∀ term, block.terminator = some term → TerminatorSound draft id term)
    (hs : ∃ block : DraftBlock, later.blocks[Draft.sink]? = some block ∧ block.terminator = some .sink) :
    later.Tidy start := by
  refine ⟨⟨?_, h.returnValue_lt, ?_, ?_, ?_⟩, hcd.trans h.idle, ?_, hr ▸ h.apart, fun id block hb term ht => ?_, hs⟩
  · exact hv ▸ h.declared_le
  · exact hv ▸ h.values_id
  · exact hv ▸ htm ▸ h.temporaries_eq
  · exact hl ▸ h.literals_id
  · rw [hr]
    exact fun row hrow => (h.rows row hrow).mono (le_of_eq (congrArg length hv.symm)) (hl ▸ prefix_refl _)
  · have hold := htn id block hb term ht
    refine ⟨fun tgt htr => ?_, fun cond hc => ⟨hv ▸ (hold.testable cond hc).lt, ?_⟩, hold.leaves⟩
    · rw [← length_rows, hr, length_rows]
      exact hold.targets_lt tgt htr
    · rw [hr]
      exact (hold.testable cond hc).plain

end Draft

/-- The action adds blocks, and leaves the draft as tidy as it was; its result satisfies `post`. -/
structure Tidies (start : Start) {α : Type} (draft : Draft) (act : LowerM α) (post : α → Draft → Prop) : Prop where
  goes : draft.Goes start (act.run draft).2
  tidy : (act.run draft).2.Tidy start
  result : post (act.run draft).1 (act.run draft).2

section

variable {α β : Type} {start : Start} {draft : Draft}

theorem Tidies.pure {res : α} {post : α → Draft → Prop} (h : draft.Tidy start) (hp : post res draft) :
    Tidies start draft (Pure.pure res) post :=
  ⟨.of_rows_eq rfl rfl (.refl _ _) rfl, h, hp⟩

variable {mid : α → Draft → Prop} {post : β → Draft → Prop}

theorem Tidies.bind {first : LowerM α} {next : α → LowerM β} (hf : Tidies start draft first mid)
    (hn : ∀ res later, draft.Goes start later → later.Tidy start → mid res later →
      Tidies start later (next res) post) : Tidies start draft (first >>= next) post := by
  have h := hn _ _ hf.goes hf.tidy hf.result
  exact ⟨hf.goes.trans h.goes, h.tidy, h.result⟩

/-- Evaluation, and the block that it makes. -/
theorem Appends.tidies {act : LowerM α} (ha : Appends start draft.values.length draft act mid)
    (h : draft.Tidy start) (exprs : List Source.ExprId) {next : α → BlockId → LowerM β}
    (hn : ∀ res before id, draft.Adds start draft.values.length before → mid res before →
      (before.addBlock exprs).Inner id → (before.addBlock exprs).Tidy start →
      Tidies start (before.addBlock exprs) (next res id) post) :
    Tidies start draft (act >>= fun res => newBlock exprs >>= next res) post := by
  obtain ⟨ht, hg⟩ := h.addBlock ha.adds ha.inOrder exprs
  have hl := hn _ _ _ ha.adds ha.result (h.inner_addBlock ha.adds.blocks exprs) ht
  exact ⟨hg.trans hl.goes, hl.tidy, hl.result⟩

variable (h : draft.Tidy start)
include h

theorem newBlock_tidies (exprs : List Source.ExprId) : Tidies start draft (newBlock exprs) (fun id later => later.Inner id) := by
  obtain ⟨ht, hg⟩ := h.addBlock .refl h.inOrder exprs
  exact ⟨hg, ht, h.inner_addBlock rfl exprs⟩

/-- A change of one block that only sets its terminator. -/
theorem modify_tidies (id : BlockId) (set : Option Terminator → Option Terminator)
    (hset : ∀ before after, set before = some after → before = some after ∨ TerminatorSound draft id after)
    (hs : id = Draft.sink → set (some .sink) = some .sink) :
    Tidies start draft (modify fun draft => { draft with
      blocks := draft.blocks.modify id fun block => { block with terminator := set block.terminator } }) (fun _ _ => True) := by
  let later : Draft := { draft with
    blocks := draft.blocks.modify id fun block => { block with terminator := set block.terminator } }
  have hr : later.rows = draft.rows := by
    refine ext_getElem? fun other => ?_
    simp only [Draft.rows, later, getElem?_map, getElem?_modify, Option.map_eq_map, Option.map_map]
    refine congrArg (fun view => draft.blocks[other]?.map view) (funext fun block => ?_)
    by_cases heq : id = other
    · simp [heq]
    · simp [heq]
  refine ⟨.of_rows_eq rfl rfl (.refl _ _) hr, h.of_rows_eq rfl rfl rfl rfl hr ?_ ?_, trivial⟩
  · intro other block hb terminator ht
    obtain ⟨before, hbf, rfl⟩ := Option.map_eq_some_iff.mp ((getElem?_modify ..).symm.trans hb)
    have hold := h.terminators other before hbf terminator
    by_cases heq : id = other
    · subst heq
      rw [if_pos rfl] at ht
      exact (hset before.terminator terminator ht).elim hold fun hnew => hnew
    · rw [if_neg heq] at ht
      exact hold ht
  · obtain ⟨block, hb, ht⟩ := h.sink
    show ∃ block, later.blocks[Draft.sink]? = some block ∧ _
    simp only [later, getElem?_modify, hb, Option.map_eq_map, Option.map_some, Option.some.injEq, exists_eq_left']
    split
    · rename_i heq
      rw [ht]
      exact hs heq
    · exact ht

theorem terminate_tidies {id : BlockId} {terminator : Terminator} (hid : draft.Inner id)
    (ht : TerminatorSound draft id terminator) : Tidies start draft (terminate id terminator) (fun _ _ => True) := by
  refine modify_tidies h id (fun _ => some terminator) ?_ fun heq => absurd heq hid.2
  rintro before after ⟨⟩
  exact Or.inr ht

theorem connect_tidies {id tgt : BlockId} (ht : tgt < draft.blocks.length) : Tidies start draft (connect id tgt) (fun _ _ => True) := by
  refine modify_tidies h id (fun terminator => terminator <|> some (.jump tgt)) ?_ fun _ => rfl
  intro before after ha
  cases before with
  | none =>
    obtain rfl : Terminator.jump tgt = after := Option.some.inj ha
    exact Or.inr (terminatorSound_jump ht)
  | some terminator => exact Or.inl ha

theorem error_tidies (kind : DiagnosticKind) (loc : Location) (msg : String) :
    Tidies start draft (error kind loc msg) (fun _ _ => True) :=
  ⟨.of_rows_eq rfl rfl (.error _ _ _ _ _) rfl, h.of_rows_eq rfl rfl rfl rfl rfl h.terminators h.sink, trivial⟩

end

/-! ## Statements -/

/-- The blocks of a draft where a segment starts and ends. -/
structure Segment.LiesIn (segment : Segment) (draft : Draft) : Prop where
  first_lt : segment.first < draft.blocks.length
  last_lt : segment.last < draft.blocks.length

theorem Segment.LiesIn.mono {start : Start} {segment : Segment} {later : Draft} (h : segment.LiesIn draft)
    (hg : draft.Goes start later) : segment.LiesIn later :=
  ⟨lt_of_lt_of_le h.first_lt hg.blocks, lt_of_lt_of_le h.last_lt hg.blocks⟩

theorem Segment.liesIn_single (h : id < draft.blocks.length) : (Segment.single id).LiesIn draft := ⟨h, h⟩

section

variable {start : Start} {draft : Draft}

/-- A test yields a value that may be tested. -/
theorem lowerTest_tidies {scope : Scope} (hs : scope.Names start) (h : draft.Tidy start) (cond : Expr) :
    Tidies start draft (lowerTest scope cond) (fun test later => later.Inner test.1 ∧ later.Testable test.2) :=
  (lowerValue_appends hs h.inOrder cond).tidies h _ fun _ _ _ ha hv hi ht =>
    .pure ht ⟨hi, h.testable_addBlock ha hv _⟩

theorem lowerBreak_tidies (h : draft.Tidy start) {exit : Option BlockId} (he : ∀ id ∈ exit, id < draft.blocks.length)
    (loc : Location) : Tidies start draft (lowerBreak exit loc) Segment.LiesIn := by
  refine .bind (newBlock_tidies h []) fun block d₁ hg₁ h₁ hb => ?_
  cases exit with
  | some exit =>
    have ht : TerminatorSound d₁ block (.jump exit) := terminatorSound_jump (lt_of_lt_of_le (he exit rfl) hg₁.blocks)
    exact .bind (terminate_tidies h₁ hb ht) fun _ _ hg₂ h₂ _ =>
      .pure h₂ (Segment.liesIn_single (hb.mono hg₂).1)
  | none =>
    exact .bind (error_tidies h₁ _ _ _) fun _ _ hg₂ h₂ _ => .pure h₂ (Segment.liesIn_single (hb.mono hg₂).1)

theorem leave_tidies (h : draft.Tidy start) {block : BlockId} (hb : draft.Inner block) :
    Tidies start draft (terminate block (.jump Draft.sink) >>= fun _ => Pure.pure (Segment.single block)) Segment.LiesIn :=
  .bind (terminate_tidies h hb (terminatorSound_jump h.sink_lt)) fun _ _ hg h₁ _ =>
    .pure h₁ (Segment.liesIn_single (hb.mono hg).1)

theorem lowerReturn_tidies {scope : Scope} (hs : scope.Names start) (h : draft.Tidy start)
    (val : Option Expr) : Tidies start draft (lowerReturn scope val) Segment.LiesIn := by
  cases val with
  | none => exact .bind (newBlock_tidies h _) fun _ _ _ h₁ hb => leave_tidies h₁ hb
  | some val =>
    have ha : Appends start draft.values.length draft
        (lowerSource scope val >>= fun src => emit (.assign scope.returnValue src) val.info.location)
        (fun _ _ => True) := by
      refine .bind (lowerSource_appends hs h.inOrder val) fun src later _ hl hsr => ?_
      have hlt := hs.returnValue_lt
      exact (assign_appends hl val.info.location (Or.inl hlt) (lt_of_lt_of_le hlt hl.declared_le) (Or.inl hlt)
        hsr).imp fun _ _ _ => trivial
    exact ha.tidies h _ fun _ _ _ _ _ hb h₁ => leave_tidies h₁ hb

end

mutual

/-- Lowering a statement leaves the draft tidy. -/
theorem lowerStmt_tidies {start : Start} {scope : Scope} (hs : scope.Names start) :
    ∀ (stmt : Stmt) (exit : Option BlockId) (draft : Draft), draft.Tidy start →
      (∀ id ∈ exit, id < draft.blocks.length) → Tidies start draft (lowerStmt scope stmt exit) Segment.LiesIn
  | .block _ [], _, draft, h, _ =>
    .bind (newBlock_tidies h []) fun _ _ _ h₁ hb => .pure h₁ (Segment.liesIn_single hb.1)
  | .block _ (stmt :: rest), exit, draft, h, he =>
    .bind (lowerStmt_tidies hs stmt exit draft h he) fun segment d₁ hg₁ h₁ hsg =>
      lowerStmts_tidies hs rest exit segment d₁ h₁ (fun id hid => lt_of_lt_of_le (he id hid) hg₁.blocks) hsg
  | .branch _ cond pos neg, exit, draft, h, he => by
    refine .bind (lowerTest_tidies hs h cond) fun ⟨test, val⟩ d₁ hg₁ h₁ ⟨ht, hv⟩ =>
      .bind (newBlock_tidies h₁ []) fun after d₂ hg₂ h₂ ha => ?_
    have he₂ : ∀ id ∈ exit, id < d₂.blocks.length := fun id hid => lt_of_lt_of_le (he id hid) (hg₁.trans hg₂).blocks
    refine .bind (lowerStmt_tidies hs pos exit d₂ h₂ he₂) fun segment d₃ hg₃ h₃ hsg =>
      .bind (connect_tidies h₃ (ha.mono hg₃).1) fun _ d₄ hg₄ h₄ _ =>
      .bind (lowerElse_tidies hs neg exit after d₄ h₄ (fun id hid => lt_of_lt_of_le (he₂ id hid) (hg₃.trans hg₄).blocks)
        (ha.mono (hg₃.trans hg₄)).1) fun other d₅ hg₅ h₅ ho => ?_
    have hg₁₅ := ((hg₂.trans hg₃).trans hg₄).trans hg₅
    refine .bind (terminate_tidies h₅ (ht.mono hg₁₅) (terminatorSound_branch
      (hv.mono hg₁₅ h₅.rows) (hsg.mono (hg₄.trans hg₅)).first_lt ho))
      fun _ _ hg₆ h₆ _ => .pure h₆ ⟨(ht.mono (hg₁₅.trans hg₆)).1, ?_⟩
    exact (ha.mono (((hg₃.trans hg₄).trans hg₅).trans hg₆)).1
  | .whileLoop _ cond body, _, draft, h, _ => by
    refine .bind (lowerTest_tidies hs h cond) fun ⟨test, val⟩ d₁ hg₁ h₁ ⟨ht, hv⟩ =>
      .bind (newBlock_tidies h₁ []) fun done d₂ hg₂ h₂ hd =>
      .bind (lowerStmt_tidies hs body (some done) d₂ h₂ fun _ hid => Option.some.inj hid ▸ hd.1) fun segment d₃ hg₃ h₃ hsg => ?_
    have ht₃ := ht.mono (hg₂.trans hg₃)
    refine .bind (connect_tidies h₃ ht₃.1) fun _ d₄ hg₄ h₄ _ => ?_
    have hg₁₄ := (hg₂.trans hg₃).trans hg₄
    exact .bind (terminate_tidies h₄ (ht.mono hg₁₄) (terminatorSound_branch
      (hv.mono hg₁₄ h₄.rows) (hsg.mono hg₄).first_lt (hd.mono (hg₃.trans hg₄)).1))
      fun _ _ hg₅ h₅ _ => .pure h₅ ⟨(ht.mono (hg₁₄.trans hg₅)).1, (hd.mono ((hg₃.trans hg₄).trans hg₅)).1⟩
  | .doLoop _ body cond negated, _, draft, h, _ => by
    refine .bind (newBlock_tidies h []) fun done d₁ hg₁ h₁ hd =>
      .bind (lowerStmt_tidies hs body (some done) d₁ h₁ fun _ hid => Option.some.inj hid ▸ hd.1) fun segment d₂ hg₂ h₂ hsg =>
      .bind (lowerTest_tidies hs h₂ cond) fun ⟨test, val⟩ d₃ hg₃ h₃ ⟨ht, hv⟩ =>
      .bind (connect_tidies h₃ ht.1) fun _ d₄ hg₄ h₄ _ => ?_
    have hv₄ := hv.mono hg₄ h₄.rows
    have hf₄ := (hsg.mono (hg₃.trans hg₄)).first_lt
    have hd₄ := (hd.mono ((hg₂.trans hg₃).trans hg₄)).1
    have htr : TerminatorSound d₄ test (if negated then .branch val done segment.first else .branch val segment.first done) := by
      cases negated
      · exact terminatorSound_branch hv₄ hf₄ hd₄
      · exact terminatorSound_branch hv₄ hd₄ hf₄
    exact .bind (terminate_tidies h₄ (ht.mono hg₄) htr) fun _ _ hg₅ h₅ _ =>
      .pure h₅ ⟨lt_of_lt_of_le hf₄ hg₅.blocks, lt_of_lt_of_le hd₄ hg₅.blocks⟩
  | .breakLoop loc, exit, draft, h, he => lowerBreak_tidies h he loc
  | .returnValue _ val, _, draft, h, _ => lowerReturn_tidies hs h val
  | .expression _ val, _, draft, h, _ =>
    (lowerExpr_appends hs val false draft h.inOrder).tidies h _ fun _ _ _ _ _ hb h₁ =>
      .pure h₁ (Segment.liesIn_single hb.1)

/-- Lowering statements behind a segment leaves the draft tidy. -/
theorem lowerStmts_tidies {start : Start} {scope : Scope} (hsc : scope.Names start) :
    ∀ (statements : List Stmt) (exit : Option BlockId) (segment : Segment) (draft : Draft), draft.Tidy start →
      (∀ id ∈ exit, id < draft.blocks.length) → segment.LiesIn draft →
      Tidies start draft (lowerStmts scope statements exit segment) Segment.LiesIn
  | [], _, _, _, h, _, hs => .pure h hs
  | statement :: rest, exit, segment, draft, h, he, hs =>
    .bind (lowerStmt_tidies hsc statement exit draft h he) fun next _ hg₁ h₁ hn =>
      .bind (connect_tidies h₁ hn.first_lt) fun _ d₂ hg₂ h₂ _ =>
      lowerStmts_tidies hsc rest exit ⟨segment.first, next.last⟩ d₂ h₂ (fun id hid => lt_of_lt_of_le (he id hid) (hg₁.trans hg₂).blocks)
        ⟨(hs.mono (hg₁.trans hg₂)).first_lt, (hn.mono hg₂).last_lt⟩

/-- Lowering the negative side of a branch leaves the draft tidy. -/
theorem lowerElse_tidies {start : Start} {scope : Scope} (hs : scope.Names start) :
    ∀ (neg : Option Stmt) (exit : Option BlockId) (after : BlockId) (draft : Draft), draft.Tidy start →
      (∀ id ∈ exit, id < draft.blocks.length) → after < draft.blocks.length →
      Tidies start draft (lowerElse scope neg exit after) (fun first later => first < later.blocks.length)
  | none, _, _, _, h, _, ha => .pure h ha
  | some neg, exit, _, draft, h, he, ha =>
    .bind (lowerStmt_tidies hs neg exit draft h he) fun _ _ hg₁ h₁ hsg =>
      .bind (connect_tidies h₁ (lt_of_lt_of_le ha hg₁.blocks)) fun _ _ hg₂ h₂ _ =>
      .pure h₂ (hsg.mono hg₂).first_lt

end

end TagAsm.Lower
