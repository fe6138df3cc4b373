import TagAsm.Proofs.Labels

/-!
# The labels of lines

Where debug tables are wanted, the code of a statement has a label in front, whose role is the word `line` and the number of the
statement. In a text such a label is told from all others by what it says and by where it stands: directly in front of a comment,
and comments stand at the beginning of statements only. So the labels of lines can be read off a text, and be taken out of it,
without a look at what it was made from.

Code that is selected with these labels and code that is selected without them go hand in hand (`SelectM.InStep`): what is kept, what
is refused and where it faults is the same.
-/

namespace TagAsm.Asm

open List

/-! ## Labels of lines in a text -/

/-- What a label says after its last dot. -/
def labelRole (label : String) : List Char := (label.toList.reverse.takeWhile (· ≠ '.')).reverse

/-- Whether a label says that it is the label of a line: after the last dot it has the word `line` and a number. -/
def namesLine (label : String) : Bool :=
  ['l', 'i', 'n', 'e'].isPrefixOf (labelRole label) && ((labelRole label).drop 4).all Char.isDigit

/-- The label of a line with the comment after it, if the text starts with them. -/
def lineMark? : List Item → Option (String × String)
  | .label name :: .comment text :: _ => if namesLine name then some (name, text) else none
  | _ => none

/-- The labels of lines in a text, each with the comment after it. -/
def lineMarks : List Item → List (String × String)
  | [] => []
  | item :: rest => (lineMark? (item :: rest)).toList ++ lineMarks rest

/-- A text without its labels of lines. -/
def withoutLineLabels : List Item → List Item
  | [] => []
  | item :: rest => if (lineMark? (item :: rest)).isSome then withoutLineLabels rest else item :: withoutLineLabels rest

/-- The labels of lines in some code, and the code without them, whatever comes after it. -/
structure Bears (items : List Item) (marks : List (String × String)) (bare : List Item) : Prop where
  marks_eq : ∀ rest, lineMarks (items ++ rest) = marks ++ lineMarks rest
  bare_eq : ∀ rest, withoutLineLabels (items ++ rest) = bare ++ withoutLineLabels rest

namespace Bears

variable {items others bare bare' : List Item} {marks marks' : List (String × String)}

theorem nil : Bears [] [] [] := ⟨fun _ => rfl, fun _ => rfl⟩

theorem append (h : Bears items marks bare) (h' : Bears others marks' bare') :
    Bears (items ++ others) (marks ++ marks') (bare ++ bare') := by
  constructor
  · intro rest
    rw [append_assoc, h.marks_eq, h'.marks_eq, append_assoc]
  · intro rest
    rw [append_assoc, h.bare_eq, h'.bare_eq, append_assoc]

/-- A line of the text that is no label of a line, whatever comes after it. -/
theorem single {item : Item} (h : ∀ rest, lineMark? (item :: rest) = none) : Bears [item] [] [item] := by
  constructor
  · intro rest
    simp [lineMarks, h]
  · intro rest
    simp [withoutLineLabels, h]

theorem of_instructions (h : ∀ item ∈ items, ∃ op, item = .instruction op) : Bears items [] items := by
  induction items with
  | nil => exact nil
  | cons item rest ih =>
    obtain ⟨⟨op, rfl⟩, hr⟩ := forall_mem_cons.mp h
    exact (single fun _ => rfl).append (ih hr)

theorem code (ops : List Instruction) : Bears (Item.code ops) [] (Item.code ops) := by
  refine of_instructions fun item hi => ?_
  obtain ⟨op, -, rfl⟩ := mem_map.mp hi
  exact ⟨op, rfl⟩

/-- A label that says that it is something else. -/
theorem label {name : String} (h : namesLine name = false) : Bears [.label name] [] [.label name] := by
  refine single fun rest => ?_
  unfold lineMark?
  split
  · rename_i heq
    obtain ⟨rfl, -⟩ := by simpa using heq
    simp [h]
  · rfl

/-- Any label in front of something that is no comment. -/
theorem label_cons (name : String) {next : Item} (hnx : ∀ text, next ≠ .comment text) (h : Bears (next :: items) marks bare) :
    Bears (.label name :: next :: items) marks (.label name :: bare) := by
  have hn : ∀ rest, lineMark? (.label name :: next :: rest) = none := by
    intro rest
    unfold lineMark?
    split
    · rename_i heq
      obtain ⟨-, rfl, -⟩ := by simpa using heq
      exact absurd rfl (hnx _)
    · rfl
  constructor
  · intro rest
    have hr := h.marks_eq rest
    rw [cons_append] at hr
    rw [cons_append, cons_append, lineMarks, hn, hr]
    rfl
  · intro rest
    have hr := h.bare_eq rest
    rw [cons_append] at hr
    rw [cons_append, cons_append, withoutLineLabels, hn, hr]
    rfl

theorem mark {name : String} (h : namesLine name = true) (text : String) :
    Bears [.label name, .comment text] [(name, text)] [.comment text] := by
  constructor
  · intro rest
    simp [lineMarks, lineMark?, h]
  · intro rest
    simp [withoutLineLabels, lineMark?, h]

theorem comment (text : String) : Bears [.comment text] [] [.comment text] := single fun _ => rfl

end Bears

end TagAsm.Asm

namespace TagAsm.Select

open Asm Abi SelectM List
open TagAsm.Flow (SubroutineId BlockId Block Body ClassLayout)

/-! ## What labels say -/

section

variable (sym : String)

theorem labelRole_localLabel {role : String} (h : '.' ∉ role.toList) : labelRole (localLabel sym role) = role.toList := by
  have hr : ∀ c ∈ role.toList.reverse, (decide (c ≠ '.')) = true := by
    intro c hc
    rw [decide_eq_true_iff]
    rintro rfl
    exact h (mem_reverse.mp hc)
  rw [labelRole, toList_localLabel, reverse_append, takeWhile_append_of_pos hr]
  simp

/-- The label of a statement is the label of a line. -/
theorem namesLine_lineLabel (num : Nat) : namesLine (lineLabel sym num) = true := by
  have hdot : '.' ∉ ("line" ++ toString num).toList := by
    rw [String.toList_append, mem_append, not_or]
    exact ⟨by decide, dot_not_mem_toString num⟩
  have hd : ∀ c ∈ (toString num).toList, c.isDigit = true := by
    intro c hc
    rw [Nat.toString_eq_ofList_toDigits, String.toList_ofList] at hc
    exact Nat.isDigit_of_mem_toDigits (by decide) (by decide) hc
  rw [namesLine, lineLabel, labelRole_localLabel sym hdot, String.toList_append]
  rw [Bool.and_eq_true, isPrefixOf_iff_prefix, all_eq_true]
  exact ⟨prefix_append _ _, hd⟩

theorem namesLine_localLabel {role : String} (hdot : '.' ∉ role.toList) (h : role.toList.head? ≠ some 'l') :
    namesLine (localLabel sym role) = false := by
  rw [namesLine, labelRole_localLabel sym hdot, Bool.and_eq_false_iff]
  left
  rw [Bool.eq_false_iff, ne_eq, isPrefixOf_iff_prefix]
  rintro ⟨rest, hr⟩
  rw [← hr] at h
  exact h rfl

theorem namesLine_blockLabel (id : BlockId) : namesLine (blockLabel sym id) = false := by
  refine namesLine_localLabel sym ?_ ?_
  · rw [String.toList_append, mem_append, not_or]
    exact ⟨by decide, dot_not_mem_toString id⟩
  · rw [String.toList_append]
    intro hh
    exact absurd (Option.some.inj hh) (by decide : 'b' ≠ 'l')

theorem bears_phase {role : String} (h : role ∈ phaseRoles) : Bears [.label (localLabel sym role)] [] [.label (localLabel sym role)] := by
  have hr : ∀ role ∈ phaseRoles, '.' ∉ role.toList ∧ role.toList.head? ≠ some 'l' := by decide
  exact .label (namesLine_localLabel sym (hr role h).1 (hr role h).2)

end

theorem Steps.bears {items : List Item} (h : Steps items) : Bears items [] items := by
  refine .of_instructions fun item hi => ?_
  obtain ⟨op, hop, -⟩ := h item hi
  exact ⟨op, hop⟩

/-! ## Hand in hand -/

/-- Two computations that fault alike, and whose results are related otherwise. -/
inductive Both {α β : Type} (post : α → β → Prop) : Except Fault α → Except Fault β → Prop where
  | fault (fault : Fault) : Both post (.error fault) (.error fault)
  | result {a : α} {b : β} (h : post a b) : Both post (.ok a) (.ok b)

variable {α β : Type} {post : α → β → Prop} {left : Except Fault α} {right : Except Fault β}

theorem Both.bind {γ δ : Type} {post' : γ → δ → Prop} {next : α → Except Fault γ} {next' : β → Except Fault δ}
    (h : Both post left right) (hn : ∀ a b, post a b → Both post' (next a) (next' b)) :
    Both post' (left >>= next) (right >>= next') := by
  cases h with
  | fault fault => exact .fault fault
  | result h => exact hn _ _ h

theorem Both.mono {post' : α → β → Prop} (h : Both post left right) (himp : ∀ a b, post a b → post' a b) : Both post' left right := by
  cases h with
  | fault fault => exact .fault fault
  | result h => exact .result (himp _ _ h)

theorem Both.same (found : Except Fault α) : Both (· = ·) found found := by
  cases found with
  | error fault => exact .fault fault
  | ok a => exact .result rfl

/-- Outcomes of two steps that keep the same, and refuse the same or else have related results. -/
inductive Agree {α β : Type} (post : α → β → Prop) : Except Refusal α × Selection → Except Refusal β × Selection → Prop where
  | refused (refusal : Refusal) (kept : Selection) : Agree post (.error refusal, kept) (.error refusal, kept)
  | result {a : α} {b : β} (kept : Selection) (h : post a b) : Agree post (.ok a, kept) (.ok b, kept)

/-- Two steps of selection that go hand in hand, whatever was kept before. -/
def SelectM.InStep {α β : Type} (post : α → β → Prop) (left : SelectM α) (right : SelectM β) : Prop :=
  ∀ kept, Both (Agree post) (left.run.run kept) (right.run.run kept)

namespace SelectM.InStep

variable {α β γ δ : Type} {post : α → β → Prop} {post' : γ → δ → Prop}

theorem pure {a : α} {b : β} (h : post a b) : InStep post (pure a) (pure b) := fun kept => .result (.result kept h)

theorem same {step : SelectM α} {p : α → Prop} (h : Yields step p) : InStep (fun a b => a = b ∧ p a) step step := by
  intro kept
  cases hrun : step.run.run kept with
  | error fault => exact .fault fault
  | ok out =>
    obtain ⟨res, after⟩ := out
    cases res with
    | error refusal => exact .result (.refused refusal after)
    | ok a => exact .result (.result after ⟨rfl, h kept a after hrun⟩)

variable {left : SelectM α} {right : SelectM β} {next : α → SelectM γ}

theorem bind {next' : β → SelectM δ} (h : InStep post left right) (hn : ∀ a b, post a b → InStep post' (next a) (next' b)) :
    InStep post' (left >>= next) (right >>= next') := by
  intro kept
  refine (h kept).bind fun out outcome' ha => ?_
  cases ha with
  | refused refusal after => exact .result (.refused refusal after)
  | result after hp => exact hn _ _ hp after

/-- The same step, and then steps that go hand in hand. -/
theorem after {first : SelectM α} {p : α → Prop} {next' : α → SelectM δ} (h : Yields first p)
    (hn : ∀ a, p a → InStep post' (next a) (next' a)) : InStep post' (first >>= next) (first >>= next') := by
  refine bind (same h) fun a b hab => ?_
  obtain ⟨rfl, ha⟩ := hab
  exact hn a ha

/-- What a step yields that goes hand in hand with another one. -/
theorem yields (h : InStep post left right) : Yields left (fun a => ∃ b, post a b) := by
  intro kept a after hrun
  have hb := h kept
  rw [hrun] at hb
  generalize right.run.run kept = out at hb
  cases hb with
  | result ha =>
    cases ha with
    | result _ hp => exact ⟨_, hp⟩

end SelectM.InStep

/-! ## Statements and blocks -/

/-- The context of the same selection without debug tables. -/
def Context.withoutDebugInfo (context : Context) : Context := { context with debugInfo := false }

/-- The label of a numbered statement, with the statement as a comment. -/
structure MarksStatement (cx : Context) (sym : String) (body : Body) (entry : Flow.Statement × Nat) (mark : String × String) :
    Prop where
  label_eq : mark.1 = lineLabel sym entry.2
  comment_eq : ∃ text, cx.program.actionText body cx.colored entry.1.action = .ok text ∧ mark.2 = Plain.strip text

/-- Code with labels of lines for those numbered statements that have one, in order, and the same code without them. -/
def LineMarked (cx : Context) (sym : String) (body : Body) (entries : List (Flow.Statement × Nat)) (items bare : List Item) :
    Prop :=
  ∃ marks, Bears items marks bare ∧ List.Forall₂ (MarksStatement cx sym body) (entries.filter (isMarked cx sym)) marks

section

variable {cx : Context} {sym : String} {body : Body}

theorem LineMarked.append {entries entries' : List (Flow.Statement × Nat)} {items others bare bare' : List Item}
    (h : LineMarked cx sym body entries items bare) (h' : LineMarked cx sym body entries' others bare') :
    LineMarked cx sym body (entries ++ entries') (items ++ others) (bare ++ bare') := by
  obtain ⟨marks, hb, hm⟩ := h
  obtain ⟨marks', hb', hm'⟩ := h'
  refine ⟨marks ++ marks', hb.append hb', ?_⟩
  rw [filter_append]
  exact rel_append hm hm'

/-- Code of no statement has no label of a line. -/
theorem LineMarked.of_bears {items : List Item} (h : Bears items [] items) : LineMarked cx sym body [] items items := ⟨[], h, .nil⟩

end

section

variable (cx : Context) (rt : Routine)

theorem statementCode_inStep (num : Nat) (stmt : Flow.Statement) : InStep (LineMarked cx rt.symbol rt.body [(stmt, num)])
      (statementCode cx rt num stmt) (statementCode cx.withoutDebugInfo rt num stmt) := by
  refine .after (.lookUp _) fun text ht => .after (actionCodeOrError_steps cx rt stmt) fun code hc => .pure ?_
  have hl : statementLabel cx rt.symbol num stmt =
      if isMarked cx rt.symbol (stmt, num) then [.label (lineLabel rt.symbol num)] else [] := rfl
  rw [hl]
  by_cases hm : isMarked cx rt.symbol (stmt, num) = true
  · rw [if_pos hm]
    refine ⟨[(lineLabel rt.symbol num, Plain.strip text)], ?_, ?_⟩
    · exact (Bears.mark (namesLine_lineLabel _ _) _).append hc.bears
    · rw [filter_cons_of_pos hm]
      exact .cons ⟨rfl, text, ht, rfl⟩ .nil
  · rw [if_neg hm]
    refine ⟨[], (Bears.comment _).append hc.bears, ?_⟩
    rw [filter_cons_of_neg hm]
    exact .nil

theorem statements_inStep (entries : List (Flow.Statement × Nat)) : InStep (LineMarked cx rt.symbol rt.body entries)
      (collect (fun (stmt, num) => statementCode cx rt num stmt) entries)
      (collect (fun (stmt, num) => statementCode cx.withoutDebugInfo rt num stmt) entries) := by
  induction entries with
  | nil => exact .pure (.of_bears .nil)
  | cons entry rest ih =>
    refine .bind (statementCode_inStep cx rt entry.2 entry.1) fun first first' hf => ?_
    refine .bind ih fun others others' ho => .pure ?_
    exact hf.append ho

theorem terminatorCode_bears (term : Flow.Terminator) : Yields (terminatorCode rt term) (fun items => Bears items [] items) := by
  cases term with
  | branch cond pos neg =>
    exact .next fun _ => .bind (callHelper_yields _ _ _) fun unwrap hu =>
      .pure (hu ▸ (steps_callDirect _ _ _).bears.append (.code _))
  | jump tgt => exact .pure (.code _)
  | sink => exact .pure (.code _)

theorem blockCode_inStep (id : BlockId) (block : Block) (start : Nat) :
    InStep (LineMarked cx rt.symbol rt.body (block.statements.zipIdx start))
      (blockCode cx rt id block start) (blockCode cx.withoutDebugInfo rt id block start) := by
  rw [blockCode_eq, blockCode_eq]
  refine .bind (statements_inStep cx rt _) fun stmts statements' hs => ?_
  refine .after (terminatorCode_bears rt _) fun term ht => .pure ?_
  have hl : Bears [.label (blockLabel rt.symbol id)] [] [.label (blockLabel rt.symbol id)] := .label (namesLine_blockLabel _ _)
  have hall := (LineMarked.of_bears hl).append (hs.append (.of_bears ht))
  rwa [nil_append, append_nil] at hall

theorem blocksCode_inStep (start : Nat) (entries : List (BlockId × Block)) :
    InStep (LineMarked cx rt.symbol rt.body ((entries.flatMap fun entry => entry.2.statements).zipIdx start))
      (blocksCode cx rt start entries) (blocksCode cx.withoutDebugInfo rt start entries) := by
  induction entries generalizing start with
  | nil => exact .pure (.of_bears .nil)
  | cons entry rest ih =>
    obtain ⟨id, block⟩ := entry
    refine .bind (blockCode_inStep cx rt id block start) fun first first' hf => ?_
    refine .bind (ih _) fun others others' ho => .pure ?_
    rw [flatMap_cons, zipIdx_append]
    exact hf.append ho

end

/-! ## Subroutines, initializers, and the start of the process -/

theorem entryCode_bears (sym : String) (layout : Layout) : Bears (entryCode sym layout) [] (entryCode sym layout) := by
  obtain ⟨steps, hs, he⟩ := steps_entryCode sym layout
  rw [he]
  have hb := (bears_phase sym (by decide : "entry" ∈ phaseRoles)).append hs.bears
  exact (Bears.single fun _ => rfl).append (.label_cons sym (fun _ h => by cases h) hb)

theorem LeavingCode.bears {endsProcess : Bool} {items : List Item} (h : LeavingCode endsProcess items) : Bears items [] items := by
  obtain ⟨steps, hs, rfl⟩ := h
  exact hs.bears.append (.code _)

/-- The code of a subroutine has its labels of lines with the statements whose positions are known, and is otherwise the same with
and without them. -/
theorem subroutineCode_inStep (cx : Context) (id : SubroutineId) (sub : Flow.Subroutine) (body : Body) (sym : String) :
    InStep (fun res result' => LineMarked cx sym body (bodyStatements body).zipIdx res.1 result'.1 ∧ res.2 = result'.2)
      (subroutineCode cx id sub body sym)
      (subroutineCode cx.withoutDebugInfo id sub body sym) := by
  refine .after (.any (exitOf cx id sub)) fun exit _ => .after (.any _) fun words _ =>
    .after (copyCode_steps cx _ _) fun ⟨copy, frame⟩ hcy =>
    .after (defaults_steps cx frame body _) fun defaults hd =>
    .bind (blocksCode_inStep cx ⟨id, sym, body, frame, (layoutOf body words).scratch⟩ 0 _) fun blocks blocks' hb =>
    .after (dropCode_steps cx frame _) fun drops hdp =>
    .after (exitItems_yields cx _ _ _) fun leave hl => .pure ⟨?_, rfl⟩
  rw [flatMap_statements_entries] at hb
  have hp : ∀ role ∈ phaseRoles, LineMarked cx sym body [] [.label (localLabel sym role)]
      [.label (localLabel sym role)] := fun role hr => .of_bears (bears_phase sym hr)
  have he : LineMarked cx sym body [] (entryCode sym (layoutOf body words)) (entryCode sym (layoutOf body words)) :=
    .of_bears (entryCode_bears sym _)
  have hcp := (he.append (hp "copy" (by decide))).append (.of_bears hcy.bears)
  have ho := (hcp.append (hp "init" (by decide))).append (.of_bears hd.bears)
  have hdr := ((ho.append hb).append (hp "deinit" (by decide))).append (.of_bears hdp.bears)
  have hc := (hdr.append (hp "epilogue" (by decide))).append (.of_bears hl.bears)
  simpa only [nil_append, append_nil] using hc.append (hp "exit" (by decide))

/-- An initializer has no label of a line. -/
theorem initializerCode_bears (cx : Context) (decl : ClassLayout) (sym : String) :
    Yields (initializerCode cx decl sym) (fun items => Bears items [] items) := by
  refine (initializerCode_pieced decl sym).mono fun items hi => ?_
  obtain ⟨pieces, rfl⟩ := hi
  have hp := (steps_piecesCode initializerFrame.frame pieces).bears
  have ho := Bears.code (Instruction.openFrame ++
    [.subq initializerFrame.frame.size .rsp, .movq (.quad .rdi) (.frame initializerFrame.object)])
  exact ((Bears.label_cons sym (fun _ h => by cases h) ho).append hp).append (.code _)

theorem startCode_bears (sym : String) : Yields (startCode sym) (fun items => Bears items [] items) := by
  refine (startCode_pieced sym).mono fun items hi => ?_
  obtain ⟨pieces, rfl⟩ := hi
  have hl := Bears.label_cons startSymbol (fun _ h => by cases h) (.code [.movq (.quad .rsp) (.quad .rbp), .subq startFrame.size .rsp])
  have he : Bears [.exported startSymbol] [] [.exported startSymbol] := .single fun _ => rfl
  exact (he.append hl).append (steps_piecesCode startFrame pieces).bears

end TagAsm.Select
