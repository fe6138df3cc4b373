import TagAsm.Proofs.Colors

/-!
# Comments

In the code of a subroutine every statement has a comment that shows it. What is shown is text for a terminal with the escape sequences
taken out, and the line feed is the one control character that stays. Literals are quoted, so none of theirs gets there, but names are shown
as they are: the comment is one line as long as no name holds a line feed.
-/

namespace TagAsm

open List

namespace Plain

/-- A character that does not end a line. -/
def IsInline (c : Char) : Prop := c ≠ '\n'

instance : DecidablePred IsInline := fun c => inferInstanceAs (Decidable (c ≠ '\n'))

/-- A line feed is shown only for a line feed. -/
theorem isInline_of_mem_step {mode : Mode} {c : Char} (hc : IsInline c) : ∀ seen ∈ (step mode c).2, IsInline seen := by
  have hk : keptControl c = [] := if_neg hc
  have hst : ∀ bytes, ∀ seen ∈ strayBytes bytes, IsInline seen := by
    intro bytes seen hs
    obtain ⟨byte, -, rfl⟩ := mem_map.mp hs
    decide
  unfold step
  split
  · exact forall_mem_nil _
  split
  · exact forall_mem_nil _
  unfold advance
  rw [hk]
  cases mode <;> dsimp only <;> repeat' split
  all_goals first
    | exact forall_mem_nil _
    | exact forall_mem_singleton.mpr hc
    | exact hst _

theorem over_isInline_strip {text : String} (h : Over IsInline text) : Over IsInline (strip text) := by
  have hs : ∀ mode (text : List Char), (∀ c ∈ text, IsInline c) → ∀ c ∈ shown mode text, IsInline c := by
    intro mode text ht
    induction text generalizing mode with
    | nil => exact forall_mem_nil _
    | cons c rest ih =>
      obtain ⟨hc, hr⟩ := forall_mem_cons.mp ht
      exact forall_mem_append.mpr ⟨isInline_of_mem_step hc, ih _ hr⟩
  intro c hc
  rw [strip, String.toList_ofList] at hc
  exact hs .text text.toList h c hc

end Plain

open Plain

theorem Style.over_isInline_opening (color : Color) : Over IsInline (plain color).opening := by
  cases color <;> decide

theorem Style.isInline_of_mem_reopen {opening text : List Char} (ho : ∀ c ∈ opening, IsInline c) (ht : ∀ c ∈ text, IsInline c) :
    ∀ c ∈ reopen opening text, IsInline c := by
  fun_induction reopen opening text with
  | case1 rest ih =>
    simp only [forall_mem_cons] at ht ⊢
    obtain ⟨he, hb, hz, hend, hr⟩ := ht
    exact ⟨he, hb, hz, hend, forall_mem_append.mpr ⟨ho, ih hr⟩⟩
  | case2 c rest _ ih =>
    obtain ⟨hc, hr⟩ := forall_mem_cons.mp ht
    exact forall_mem_cons.mpr ⟨hc, ih hr⟩
  | case3 => exact forall_mem_nil _

/-- Neither with colors nor without them there is a line feed, unless there is one in a part. -/
theorem Plain.weaves_isInline : Weaves IsInline fun tinted plain => Over IsInline tinted ∧ Over IsInline plain where
  of_shown := by
    rintro c hc rfl
    exact absurd hc (by decide)
  refl ht := ⟨ht, ht⟩
  append h h' := ⟨h.1.append h'.1, h.2.append h'.2⟩
  paint color text ht := by
    have ho := Style.over_isInline_opening color
    have hi : Over IsInline (String.ofList (Style.reopen (Style.plain color).opening.toList text.toList)) := by
      unfold Over
      rw [String.toList_ofList]
      exact Style.isInline_of_mem_reopen ho ht
    exact ⟨(ho.append hi).append (by decide), ht⟩

namespace Select

open Asm SelectM

/-- What holds of both results holds of each. -/
theorem Both.each {α β : Type} {p : α → Prop} {q : β → Prop} {left : Except Fault α} {right : Except Fault β}
    (h : Both (fun a b => p a ∧ q b) left right) : (∀ a, left = .ok a → p a) ∧ ∀ b, right = .ok b → q b := by
  cases h with
  | fault => exact ⟨fun _ heq => (nomatch heq), fun _ heq => (nomatch heq)⟩
  | result h => exact ⟨fun _ heq => Except.ok.inj heq ▸ h.1, fun _ heq => Except.ok.inj heq ▸ h.2⟩

/-- A text that is one line with a comment: it begins with a tab and the sign for comments, and its only line feed is at the end. -/
def IsCommentLine (text : String) : Prop :=
  ['\t', '#'] <+: text.toList ∧ text.toList.getLast? = some '\n' ∧ text.toList.count '\n' = 1

instance (text : String) : Decidable (IsCommentLine text) :=
  inferInstanceAs (Decidable (['\t', '#'] <+: text.toList ∧ text.toList.getLast? = some '\n' ∧ text.toList.count '\n' = 1))

theorem isCommentLine_comment {text : String} (h : Over IsInline text) : IsCommentLine (Item.comment text).line := by
  have hl : (Item.comment text).line.toList = '\t' :: '#' :: ' ' :: (text.toList ++ ['\n']) := by
    simp [Item.line]
  have hn : text.toList.count '\n' = 0 := count_eq_zero.mpr fun hmem => h _ hmem rfl
  unfold IsCommentLine
  rw [hl]
  refine ⟨⟨_, rfl⟩, ?_, ?_⟩
  · rw [← cons_append, ← cons_append, ← cons_append, getLast?_concat]
  · simp [hn]

/-- The comment in front of a statement's code is one line, with colors and without them, if no name of a value, a subroutine or a class
holds a line feed. What literals hold does not matter. -/
theorem statementCode_comment {context : Context} {routine : Routine} (hprogram : context.program.NamesOver IsInline)
    (hbody : routine.body.NamesOver IsInline) (number : Nat) (statement : Flow.Statement) :
    Yields ((EmitM.statement context routine number statement).code routine.frame) fun items => ∃ text code,
      items = statementLabel context routine.symbol number statement ++ .comment text :: code ∧
        IsCommentLine (Item.comment text).line ∧ ∀ item ∈ code, ∃ op, item = .instruction op := by
  rw [(EmitM.statement_completes context routine number statement).code_eq]
  refine .bind (.lookUp _) fun text htext => .bind (actionCodeOrError_steps context routine statement) fun code hcode => .pure ?_
  obtain ⟨htinted, hplain⟩ := (context.program.weaves_actionText weaves_isInline hprogram hbody statement.action).each
  have hinline : Over IsInline text := by
    cases hcolored : context.colored with
    | true => exact htinted text (hcolored ▸ htext)
    | false => exact hplain text (hcolored ▸ htext)
  refine ⟨Plain.strip text, code, append_assoc .., isCommentLine_comment (over_isInline_strip hinline), fun item hitem => ?_⟩
  obtain ⟨op, rfl, -⟩ := hcode item hitem
  exact ⟨op, rfl⟩

/-- A body that sets a variable of this name to a string. -/
def settingBody (name : String) : Flow.Body := { nextLineBody with values := [⟨0, none, 0⟩, ⟨1, some ⟨name, .unknown⟩, 1⟩] }

/-- A program of one subroutine with that body, and the contents of the string. -/
def setting (name contents : String) : Flow.Program :=
  { nextLine with
    subroutines := [⟨⟨"f", .unknown⟩, 2, .internal, none, .defined (settingBody name)⟩]
    literals := [⟨0, 1, .string contents⟩] }

/-- The code of the statement that sets the variable. -/
def settingCode (name contents : String) : SelectM (List Item) :=
  let frame := (layoutOf (settingBody name) 0).frame
  (EmitM.statement ⟨setting name contents, false, false⟩ ⟨0, "f", settingBody name, frame, none⟩ 0
    ⟨.assign 1 (.literal 0), .unknown⟩).code frame

theorem settingCode_eq (name contents : String) : settingCode name contents = statementCode ⟨setting name contents, false, false⟩
      ⟨0, "f", settingBody name, (layoutOf (settingBody name) 0).frame, none⟩ 0 ⟨.assign 1 (.literal 0), .unknown⟩ :=
  (EmitM.statement_completes _ _ _ _).code_eq

/-- A string with a line feed in it is shown in one line. -/
theorem statementCode_comment_quoted : ∃ items later text,
    (settingCode "a" "\nret").run.run ⟨⟨[], [], [], [], []⟩, [], [], []⟩ = .ok (.ok items, later) ∧
      .comment text ∈ items ∧ IsCommentLine (Item.comment text).line := by
  have hbody : (settingBody "a").NamesOver IsInline := by
    unfold Flow.Body.NamesOver
    decide
  have hprogram : (setting "a" "\nret").NamesOver IsInline := by
    refine ⟨forall_mem_nil _, forall_mem_singleton.mpr (by decide), forall_mem_singleton.mpr fun body hbody' => ?_⟩
    exact Option.some.inj hbody' ▸ hbody
  have hyields := @statementCode_comment ⟨setting "a" "\nret", false, false⟩
    ⟨0, "f", settingBody "a", (layoutOf (settingBody "a") 0).frame, none⟩ hprogram hbody 0 ⟨.assign 1 (.literal 0), .unknown⟩
  change Yields (settingCode "a" "\nret") _ at hyields
  rw [settingCode_eq] at hyields ⊢
  obtain ⟨text, code, hitems, hline, -⟩ := hyields ⟨⟨[], [], [], [], []⟩, [], [], []⟩ _ _ rfl
  exact ⟨_, _, text, rfl, hitems ▸ mem_append_right _ mem_cons_self, hline⟩

/-- Not every comment is one line: of a variable with a line feed in its name, the rest of the name stands on a line of its own. -/
theorem comment_splits : ∃ items later text,
    (settingCode "a\nret #" "").run.run ⟨⟨[], [], [], [], []⟩, [], [], []⟩ = .ok (.ok items, later) ∧
      .comment text ∈ items ∧ (Item.comment text).line = "\t# %1.a\nret # <- \"\"\n" ∧ ¬IsCommentLine (Item.comment text).line := by
  rw [settingCode_eq]
  exact ⟨_, _, _, rfl, mem_cons_self, by decide +kernel, by decide +kernel⟩

end Select

end TagAsm
