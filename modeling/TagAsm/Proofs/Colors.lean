import TagAsm.Proofs.LineLabels
import TagAsm.Proofs.Reporting

/-!
# Colors do not reach the code

The comments in the code are texts for a terminal with everything but the text taken out. A text in colors is put together from pieces
in one color each, none inside another, and from text between them. Whoever reads such a piece is back where they started at its end
(`Plain.Shows`), as long as no name in it holds a control character, and characters and strings are quoted, so that they never hold one.
So the comments are the same with and without colors. They are the uncolored texts, but for the control characters from U+0080 to U+009F,
which a terminal does not show and which names may hold.
-/

namespace TagAsm

open List

namespace Plain

/-- A character that is no control character below U+0020. -/
def IsText (c : Char) : Prop := 0x20 ≤ c.toNat

/-- A character that is shown: neither a control character below U+0020 nor one from U+0080 to U+009F. -/
def IsShown (c : Char) : Prop := IsText c ∧ ¬(0x80 ≤ c.toNat ∧ c.toNat ≤ 0x9f)

instance : DecidablePred IsText := fun c => inferInstanceAs (Decidable (0x20 ≤ c.toNat))

instance : DecidablePred IsShown := fun c => inferInstanceAs (Decidable (IsText c ∧ ¬(0x80 ≤ c.toNat ∧ c.toNat ≤ 0x9f)))

/-- A character of the parameters of a control sequence. -/
def IsCode (c : Char) : Prop := 0x20 ≤ c.toNat ∧ c.toNat < 0x40

instance : DecidablePred IsCode := fun c => inferInstanceAs (Decidable (0x20 ≤ c.toNat ∧ c.toNat < 0x40))

/-- All characters of the text are of this sort. -/
def Over (sort : Char → Prop) (text : String) : Prop := ∀ c ∈ text.toList, sort c

instance (sort : Char → Prop) [DecidablePred sort] (text : String) : Decidable (Over sort text) :=
  List.decidableBAll sort text.toList

/-! ## What a reader is shown -/

/-- Of this text a reader is shown that, whatever comes next. At its end the reader is back in the midst of text. -/
def Shows (text seen : List Char) : Prop := ∀ rest, shown .text (text ++ rest) = seen ++ shown .text rest

namespace Shows

variable {text text' seen seen' : List Char}

theorem nil : Shows [] [] := fun _ => rfl

theorem append (h : Shows text seen) (h' : Shows text' seen') : Shows (text ++ text') (seen ++ seen') := by
  intro rest
  rw [append_assoc, h, h', append_assoc]

/-- What is no control character below U+0020 starts nothing. -/
theorem step_of_isText {c : Char} (h : IsText c) (mode : Mode) : c ≠ '\n' ∧ step mode c = advance mode c := by
  have hc : ∀ control : Char, control.toNat < 0x20 → c ≠ control := by
    rintro control hcn rfl
    exact absurd h (Nat.not_le.mpr hcn)
  rw [step, if_neg (hc _ (by decide)), if_neg (not_or.mpr ⟨hc _ (by decide), hc _ (by decide)⟩)]
  exact ⟨hc _ (by decide), rfl⟩

theorem char {c : Char} (h : IsText c) : Shows [c] (if IsShown c then [c] else []) := by
  intro rest
  obtain ⟨hc, hst⟩ := step_of_isText h .text
  rw [singleton_append, shown, hst, advance]
  by_cases hs : IsShown c
  · rw [if_neg (not_or.mpr ⟨Nat.not_lt.mpr h, hs.2⟩), if_pos hs]
  · have hu : 0x80 ≤ c.toNat ∧ c.toNat ≤ 0x9f := not_not.mp fun hnot => hs ⟨h, hnot⟩
    rw [if_pos (.inr hu), if_neg hs, keptControl, if_neg hc]

/-- Text without control characters below U+0020. -/
theorem ofText (h : ∀ c ∈ text, IsText c) : Shows text (text.filter IsShown) := by
  induction text with
  | nil => exact nil
  | cons c rest ih =>
    obtain ⟨hc, hr⟩ := forall_mem_cons.mp h
    have hall := (char hc).append (ih hr)
    by_cases hs : IsShown c
    · simpa [hs] using hall
    · simpa [hs] using hall

/-- A control sequence: nothing is shown of it. -/
theorem sequence {codes : List Char} (h : ∀ c ∈ codes, IsCode c) : Shows ('\x1b' :: '[' :: (codes ++ ['m'])) [] := by
  intro rest
  have hc : shown .control (codes ++ ('m' :: rest)) = shown .text rest := by
    induction codes with
    | nil => rfl
    | cons c codes ih =>
      obtain ⟨⟨hlow, hh⟩, hc⟩ := forall_mem_cons.mp h
      rw [cons_append, shown, (step_of_isText hlow .control).2, advance, if_neg (by omega), if_neg (by omega), nil_append]
      exact ih hc
  rw [nil_append, ← hc]
  simp only [cons_append, append_assoc, nil_append]
  rfl

end Shows

/-! ## Texts in colors -/

/-- The text that is left of another one when the characters from U+0080 to U+009F are taken out. -/
def withoutHidden (text : String) : String := String.ofList (text.toList.filter IsShown)

/-- A sort of characters that texts are made of: text, and all that is shown. -/
structure Admissible (sort : Char → Prop) : Prop where
  isText : ∀ c, sort c → IsText c
  of_shown : ∀ c, IsShown c → sort c

theorem admissible_isText : Admissible IsText := ⟨fun _ h => h, fun _ h => h.1⟩

theorem admissible_isShown : Admissible IsShown := ⟨fun _ h => h.1, fun _ h => h⟩

/-- The first text shows what the second one shows, and the second has characters of this sort only. -/
structure Tints (sort : Char → Prop) (tinted plain : String) : Prop where
  chars : Over sort plain
  shows : Shows tinted.toList (plain.toList.filter IsShown)

section

variable {sort : Char → Prop} {tinted plain tinted' plain' : String}

theorem Over.append {text text' : String} (h : Over sort text) (h' : Over sort text') : Over sort (text ++ text') := by
  unfold Over
  rw [String.toList_append]
  exact forall_mem_append.mpr ⟨h, h'⟩

theorem Over.mono {sort' : Char → Prop} {text : String} (h : Over sort text) (himp : ∀ c, sort c → sort' c) : Over sort' text :=
  fun c hc => himp c (h c hc)

theorem Tints.refl (hs : Admissible sort) {text : String} (h : Over sort text) : Tints sort text text :=
  ⟨h, .ofText fun c hc => hs.isText c (h c hc)⟩

theorem Tints.append (h : Tints sort tinted plain) (h' : Tints sort tinted' plain') :
    Tints sort (tinted ++ tinted') (plain ++ plain') := by
  refine ⟨h.chars.append h'.chars, ?_⟩
  rw [String.toList_append, String.toList_append, filter_append]
  exact h.shows.append h'.shows

/-- What is left of a text in colors: what the reader is shown of the text without them. -/
theorem Tints.strip_eq (h : Tints sort tinted plain) : strip tinted = withoutHidden plain := by
  have hs := h.shows []
  rw [append_nil] at hs
  rw [strip, withoutHidden, hs, shown, append_nil]

theorem withoutHidden_of_over {text : String} (h : Over IsShown text) : withoutHidden text = text := by
  have hall : text.toList.filter IsShown = text.toList := filter_eq_self.mpr fun c hc => decide_eq_true (h c hc)
  rw [withoutHidden, hall, String.ofList_toList]

end

end Plain

open Plain

/-! ## Styles -/

theorem Style.reopen_of_not_mem (opening : List Char) {text : List Char} (h : '\x1b' ∉ text) : reopen opening text = text := by
  fun_induction reopen opening text with
  | case1 rest ih => exact absurd mem_cons_self h
  | case2 c rest _ ih => rw [ih fun hmem => h (mem_cons_of_mem _ hmem)]
  | case3 => rfl

theorem Style.shows_opening (style : Style) : Shows style.opening.toList [] := by
  have hc : Over IsCode (";".intercalate style.codes) := by
    obtain ⟨bold, color⟩ := style
    cases color with
    | none => cases bold <;> decide
    | some color => cases bold <;> cases color <;> decide
  rw [opening, String.toList_append, String.toList_append]
  exact .sequence hc

variable {sort : Char → Prop} {text : String}

/-- A text in some style, with colors on and off. -/
theorem Style.tints_paint (hs : Admissible sort) (style : Style) (h : Over sort text) :
    Tints sort (style.paint true text) (style.paint false text) := by
  have he : '\x1b' ∉ text.toList := fun hmem => absurd (hs.isText _ (h _ hmem)) (by decide)
  refine ⟨h, ?_⟩
  show Shows (style.opening ++ String.ofList (reopen style.opening.toList text.toList) ++ closing).toList (text.toList.filter IsShown)
  rw [reopen_of_not_mem _ he, String.ofList_toList, String.toList_append, String.toList_append]
  have hc : Shows closing.toList [] := @Shows.sequence ['0'] (by decide : Over IsCode "0")
  simpa using (style.shows_opening.append (Tints.refl hs h).shows).append hc

theorem Color.tints_paint (hs : Admissible sort) (color : Color) (h : Over sort text) :
    Tints sort (color.paint true text) (color.paint false text) :=
  (Style.plain color).tints_paint hs h

/-! ## Texts and their parts -/

namespace Plain

/-- A relation between texts with colors on and off that goes from parts to the whole. It holds of text of this sort, in one color or in
none, and of what is put together from texts for which it holds. -/
structure Weaves (sort : Char → Prop) (related : String → String → Prop) : Prop where
  of_shown : ∀ c, IsShown c → sort c
  refl : ∀ {text}, Over sort text → related text text
  append : ∀ {tinted plain tinted' plain'}, related tinted plain → related tinted' plain' → related (tinted ++ tinted') (plain ++ plain')
  paint : ∀ (color : Color) {text}, Over sort text → related (color.paint true text) (color.paint false text)

theorem Admissible.weaves (hs : Admissible sort) : Weaves sort (Tints sort) :=
  ⟨hs.of_shown, .refl hs, .append, fun color _ => color.tints_paint hs⟩

namespace Weaves

variable {related : String → String → Prop} (h : Weaves sort related)
include h

theorem admits {text : String} (ht : Over IsShown text) : Over sort text := ht.mono h.of_shown

theorem intercalate {separator : String} (hs : Over sort separator) {tinted plain : List String}
    (ht : Forall₂ related tinted plain) : related (separator.intercalate tinted) (separator.intercalate plain) := by
  induction ht with
  | nil => exact h.refl (forall_mem_nil _)
  | @cons first first' rest rest' hf hr ih =>
    cases hr with
    | nil => simpa using hf
    | cons hn hl =>
      rw [String.intercalate_cons_of_ne_nil (cons_ne_nil _ _), String.intercalate_cons_of_ne_nil (cons_ne_nil _ _)]
      exact h.append (h.append hf (h.refl hs)) ih

end Weaves

end Plain

/-! ## Numbers, literals and names -/

theorem Plain.isShown_digitChar (digit : Nat) : IsShown digit.digitChar := by
  have hd : ∀ digit < 16, IsShown (Nat.digitChar digit) := by decide
  rcases Nat.lt_or_ge digit 16 with hlt | hge
  · exact hd digit hlt
  · rw [Nat.digitChar_eq_star.mpr hge]
    decide

theorem Plain.isShown_of_mem_toDigits {base num : Nat} (hb : 1 < base) {c : Char} (h : c ∈ Nat.toDigits base num) : IsShown c := by
  induction num using Nat.strongRecOn with
  | ind num ih =>
    rw [Nat.toDigits_eq_if hb] at h
    split at h
    · rw [mem_singleton.mp h]
      exact isShown_digitChar _
    · rcases mem_append.mp h with h | h
      · exact ih _ (Nat.div_lt_self (by omega) hb) h
      · rw [mem_singleton.mp h]
        exact isShown_digitChar _

/-- Numbers, and what is quoted, hold no control character: those are escaped. -/
theorem Plain.over_toString_nat (num : Nat) : Over IsShown (toString num) := by
  intro c hc
  rw [Nat.toString_eq_ofList_toDigits, String.toList_ofList] at hc
  exact isShown_of_mem_toDigits (by decide) hc

theorem Plain.over_toString_int (num : Int) : Over IsShown (toString num) := by
  cases num with
  | ofNat val => exact over_toString_nat val
  | negSucc val =>
    exact .append (by decide) (over_toString_nat _)

theorem Hidden.isHidden_of_not_isShown {c : Char} (h : ¬IsShown c) : isHidden c = true := by
  unfold isHidden
  by_cases ht : IsText c
  · have hu : 0x80 ≤ c.toNat ∧ c.toNat ≤ 0x9f := not_not.mp fun hnot => h ⟨ht, hnot⟩
    -- of the boundaries only the first is that low
    obtain ⟨rest, hb⟩ : ∃ rest, boundaries = 0x7f :: 0xa1 :: rest := by
      have hs : stretches = 34 :: 12 :: stretches.drop 2 := rfl
      exact ⟨_, by rw [boundaries, hs, scanl_cons, scanl_cons]⟩
    have hlow : boundaries.takeWhile (· ≤ c.toNat) = [0x7f] := by
      rw [hb, takeWhile_cons_of_pos (by simp; omega), takeWhile_cons_of_neg (by simp; omega)]
    rw [if_neg (by omega), hlow]
    rfl
  · have hlow : c.toNat < 0x20 := Nat.not_le.mp ht
    rw [if_pos (by omega)]
    exact decide_eq_true hlow

theorem Quoted.isShown_of_mem_escape {quote : Char} (hq : IsShown quote) {text c : Char} (h : c ∈ escape quote text) : IsShown c := by
  have hpr : ∀ letter : Char, IsShown letter → c ∈ ['\\', letter] → IsShown c := by
    intro letter hl hc
    rcases mem_pair.mp hc with rfl | rfl
    · decide
    · exact hl
  unfold escape at h
  iterate 5
    split at h
    · exact hpr _ (by decide) h
  split at h
  · rename_i heq
    exact hpr _ (heq ▸ hq) h
  split at h
  · have hf : Over IsShown "\\u\x7b" := by decide
    rcases mem_append.mp h with h | h
    · rcases mem_append.mp h with h | h
      · exact hf c h
      · exact isShown_of_mem_toDigits (by decide) h
    · rw [mem_singleton.mp h]
      decide
  · rename_i hh
    rw [mem_singleton.mp h]
    exact not_not.mp fun hnot => hh (Hidden.isHidden_of_not_isShown hnot)

theorem Quoted.over_enclose {quote : Char} (hq : IsShown quote) (text : List Char) : Over IsShown (enclose quote text) := by
  intro c hc
  rw [enclose, String.toList_ofList] at hc
  rcases mem_append.mp hc with hc | hc
  · rcases mem_cons.mp hc with rfl | hc
    · exact hq
    · obtain ⟨spelled, -, hc⟩ := mem_flatMap.mp hc
      exact isShown_of_mem_escape hq hc
  · exact mem_singleton.mp hc ▸ hq

/-- Whatever a literal holds, its text holds no control character. -/
theorem LiteralValue.over_text (val : LiteralValue) : Over IsShown val.text := by
  cases val with
  | bool val => cases val <;> decide
  | byte | uint | ulong => exact .append (over_toString_nat _) (by decide)
  | int val => exact over_toString_int _
  | long val => exact .append (over_toString_int _) (by decide)
  | char | string => exact Quoted.over_enclose (by decide) _

section

variable {sort : Char → Prop}

theorem Plain.over_intercalate {separator : String} (hs : Over sort separator) {texts : List String}
    (h : ∀ text ∈ texts, Over sort text) : Over sort (separator.intercalate texts) := by
  induction texts with
  | nil => exact forall_mem_nil _
  | cons first rest ih =>
    obtain ⟨hf, hr⟩ := forall_mem_cons.mp h
    cases rest with
    | nil => simpa using hf
    | cons next later =>
      rw [String.intercalate_cons_of_ne_nil (cons_ne_nil _ _)]
      exact (hf.append hs).append (ih hr)

/-- The name of a type is of the sort that the names of classes are. -/
theorem TypeTable.over_nameWithin (hs : ∀ c, IsShown c → sort c) {table : TypeTable} {className : ClassId → Except Fault String}
    (hc : ∀ id name, className id = .ok name → Over sort name) {depth : Nat} {id : TypeId} {name : String}
    (h : table.nameWithin className depth id = .ok name) : Over sort name := by
  have hw : ∀ {text : String}, Over IsShown text → Over sort text := fun h => h.mono hs
  induction depth generalizing id name with
  | zero => cases h
  | succ depth ih =>
    have hall : ∀ {ids : List TypeId} {names : List String}, ids.mapM (table.nameWithin className depth) = .ok names →
        Over sort (", ".intercalate names) := by
      intro ids names hn
      refine over_intercalate (hw (by decide)) fun name hnm => ?_
      have hfr := (mapM_eq_ok_iff_forall₂ _ ids names).mp hn
      obtain ⟨id, -, hid⟩ := exists_mem_of_forall₂ hfr.flip hnm
      exact ih hid
    obtain ⟨kind, -, h⟩ := of_bind_eq_ok h
    cases kind with
    | void | dynamic =>
      cases h
      exact hw (by decide)
    | primitive kind =>
      cases h
      exact hw (by cases kind <;> decide)
    | array element =>
      obtain ⟨inner, hi, h⟩ := of_bind_eq_ok h
      cases h
      exact (ih hi).append (hw (by decide))
    | function params ret =>
      obtain ⟨names, hn, h⟩ := of_bind_eq_ok h
      obtain ⟨returned, hr, h⟩ := of_bind_eq_ok h
      cases h
      exact (((hw (by decide)).append (hall hn)).append (hw (by decide))).append (ih hr)
    | classType classId args =>
      obtain ⟨found, hf, h⟩ := of_bind_eq_ok h
      split at h
      · cases h
        exact hc _ _ hf
      · obtain ⟨names, hn, h⟩ := of_bind_eq_ok h
        cases h
        exact (((hc _ _ hf).append (hw (by decide))).append (hall hn)).append (hw (by decide))

end

/-! ## Statements -/

section

variable {α β γ : Type}

/-- The same look-up, and then computations that go hand in hand. -/
theorem Select.Both.after {post : β → γ → Prop} {found : Except Fault α} {next : α → Except Fault β} {next' : α → Except Fault γ}
    (h : ∀ a, found = .ok a → Both post (next a) (next' a)) : Both post (found >>= next) (found >>= next') := by
  cases found with
  | error fault => exact .fault fault
  | ok a => exact h a rfl

theorem Select.Both.mapM {post : β → γ → Prop} {step : α → Except Fault β} {step' : α → Except Fault γ} (items : List α)
    (h : ∀ item, Both post (step item) (step' item)) : Both (Forall₂ post) (items.mapM step) (items.mapM step') := by
  induction items with
  | nil => exact .result .nil
  | cons item rest ih =>
    rw [mapM_cons, mapM_cons]
    exact .bind (h item) fun first first' hf => .bind ih fun others others' ho => .result (.cons hf ho)

end

namespace Flow

/-- The names of a body's values have characters of this sort only. -/
def Body.NamesOver (sort : Char → Prop) (body : Body) : Prop :=
  ∀ value ∈ body.values, ∀ symbol ∈ value.symbol, Over sort symbol.name

/-- The names of classes, subroutines and values have characters of this sort only. Whatever else there is in the program, such as the
contents of its literals, may have any. -/
structure Program.NamesOver (sort : Char → Prop) (prog : Program) : Prop where
  classes : ∀ name ∈ prog.classNames, Over sort name
  subroutines : ∀ sub ∈ prog.subroutines, Over sort sub.symbol.name
  values : ∀ sub ∈ prog.subroutines, ∀ body ∈ sub.body?, body.NamesOver sort

section

open Select (Both)

variable {sort : Char → Prop} {related : String → String → Prop} (h : Weaves sort related) {prog : Program} {body : Body}

include h

theorem Body.weaves_valueText (hbody : body.NamesOver sort) (id : ValueId) :
    Both related (body.valueText true id) (body.valueText false id) := by
  refine .after fun val hv => .result (h.paint .yellow ?_)
  have hn : Over sort ("%" ++ toString id) := h.admits (.append (by decide) (over_toString_nat id))
  split
  · rename_i sym hs
    have hmem := mem_of_getElem? (Table.fetch_eq_ok_iff.mp hv)
    exact (hn.append (h.admits (by decide))).append (hbody val hmem sym hs)
  · exact hn

theorem Body.weaves_valuesText (hbody : body.NamesOver sort) (ids : List ValueId) :
    Both related (body.valuesText true ids) (body.valuesText false ids) :=
  (Both.mapM ids (body.weaves_valueText h hbody)).bind fun _ _ ht => .result (h.intercalate (h.admits (by decide)) ht)

theorem Program.weaves_literalText (id : LiteralId) : Both related (prog.literalText true id) (prog.literalText false id) :=
  .after fun lit _ => .result (h.paint .magenta (h.admits lit.value.over_text))

variable (hp : prog.NamesOver sort)
include hp

theorem Program.over_typeName {id : TypeId} {name : String} (hn : prog.typeName id = .ok name) : Over sort name := by
  refine TypeTable.over_nameWithin h.of_shown (fun classId name hn => ?_) hn
  exact hp.classes name (mem_of_getElem? (Table.fetch_eq_ok_iff.mp hn))

theorem Program.weaves_subroutineText (id : SubroutineId) :
    Both related (prog.subroutineText true id) (prog.subroutineText false id) := by
  refine .after fun name hn => .result (h.paint .blue ?_)
  obtain ⟨sub, hs, hn⟩ := of_bind_eq_ok hn
  have hown := hp.subroutines sub (mem_of_getElem? (Table.fetch_eq_ok_iff.mp hs))
  split at hn
  · obtain ⟨owner, ho, hn⟩ := of_bind_eq_ok hn
    cases hn
    exact ((prog.over_typeName h hp ho).append (h.admits (by decide))).append hown
  · cases hn
    exact hown

theorem Program.weaves_sourceText (hbody : body.NamesOver sort) (src : AssignSource) :
    Both related (prog.sourceText body true src) (prog.sourceText body false src) := by
  cases src with
  | value id => exact body.weaves_valueText h hbody id
  | literal id => exact prog.weaves_literalText h id
  | subroutine id => exact prog.weaves_subroutineText h hp id

/-- A statement in colors: it faults where the statement without colors does, and otherwise the two are related. -/
theorem Program.weaves_actionText (hbody : body.NamesOver sort) (act : Action) :
    Both related (prog.actionText body true act) (prog.actionText body false act) := by
  have hv := body.weaves_valueText h hbody
  have hvs := body.weaves_valuesText h hbody
  have hl := prog.weaves_literalText h
  -- the words of a statement hold no control character
  have hw : ∀ {text : String}, Over IsShown text → related text text := fun htx => h.refl (h.admits htx)
  have hs : ∀ (color : Color) {text : String}, Over IsShown text → related (color.paint true text) (color.paint false text) :=
    fun color _ htx => h.paint color (h.admits htx)
  -- most statements begin with the value that they write
  have hwr : ∀ {word gap tinted plain : String}, Over IsShown word → Over IsShown gap → related tinted plain →
      related (tinted ++ " " ++ Color.white.paint true word ++ gap) (plain ++ " " ++ Color.white.paint false word ++ gap) :=
    fun hwd hg hr => h.append (h.append (h.append hr (hw (by decide))) (hs _ hwd)) (hw hg)
  cases act with
  | operator kind res args =>
    refine (hv res).bind fun _ _ hr => (hvs args).bind fun _ _ ha => .result ?_
    have hk : Over IsShown kind.symbol := by cases kind <;> decide
    exact h.append (h.append (h.append (hwr (by decide) (by decide) hr) (hs _ hk)) (hw (by decide))) ha
  | call res callee args =>
    refine (hv res).bind fun _ _ hr => (prog.weaves_subroutineText h hp callee).bind fun _ _ hcl =>
      (hvs args).bind fun _ _ ha => .result ?_
    exact h.append (h.append (h.append (h.append (h.append (h.append (hwr (by decide) (by decide) hr) (hs _ (by decide))) (hw (by decide)))
      hcl) (hw (by decide))) ha) (hw (by decide))
  | member res obj name | memberRef res obj name =>
    refine (hv res).bind fun _ _ hr => (hv obj).bind fun _ _ ho => (hl name).bind fun _ _ hn => .result ?_
    exact h.append (h.append (h.append (hwr (by decide) (by decide) hr) ho) (hw (by decide))) hn
  | builtin kind tmpl res args =>
    have hk : Over IsShown kind.symbol := by cases kind <;> decide
    have hc : ∀ {tmpl tinted plain : String}, Over sort tmpl → related tinted plain →
        related (Color.cyan.paint true kind.symbol ++ tmpl ++ "(" ++ tinted ++ ")")
          (Color.cyan.paint false kind.symbol ++ tmpl ++ "(" ++ plain ++ ")") :=
      fun ht ha =>
        h.append (h.append (h.append (h.append (hs _ hk) (h.refl ht)) (hw (by decide))) ha) (hw (by decide))
    cases tmpl with
    | none =>
      refine (hvs args).bind fun _ _ ha => ?_
      have hwh := hc (h.admits (by decide : Over IsShown "")) ha
      cases res with
      | none => exact .result hwh
      | some res => exact (hv res).bind fun _ _ hr => .result (h.append (hwr (by decide) (by decide) hr) hwh)
    | some ty =>
      refine .after fun name hn => (hvs args).bind fun _ _ ha => ?_
      have ht : Over sort ("<" ++ name ++ ">") :=
        ((h.admits (by decide)).append (prog.over_typeName h hp hn)).append (h.admits (by decide))
      have hwh := hc ht ha
      cases res with
      | none => exact .result hwh
      | some res => exact (hv res).bind fun _ _ hr => .result (h.append (hwr (by decide) (by decide) hr) hwh)
  | assign dst src =>
    refine (prog.weaves_sourceText h hp hbody src).bind fun _ _ hsr => (hv dst).bind fun _ _ hd =>
      .result ?_
    exact h.append (hwr (by decide) (by decide) hd) hsr

end

end Flow

/-! ## Selection -/

namespace Select

open Asm Abi SelectM
open TagAsm.Flow (SubroutineId BlockId Block Body)

section

variable {prog : Flow.Program} (hp : prog.NamesOver IsText) (debug : Bool)

include hp

variable {rt : Routine}

section

variable (hbody : rt.body.NamesOver IsText)
include hbody

/-- The comment in front of a statement loses its colors. -/
theorem statementCode_colored (num : Nat) (stmt : Flow.Statement) : statementCode ⟨prog, debug, true⟩ rt num stmt =
      statementCode ⟨prog, debug, false⟩ rt num stmt := by
  have hb := prog.weaves_actionText admissible_isText.weaves hp hbody stmt.action
  unfold statementCode
  generalize prog.actionText rt.body true stmt.action = tinted at hb
  generalize prog.actionText rt.body false stmt.action = plain at hb
  cases hb with
  | fault fault => rfl
  | @result tinted plain ht =>
    have hs : Plain.strip tinted = Plain.strip plain := ht.strip_eq.trans (Tints.refl admissible_isText ht.chars).strip_eq.symm
    show (actionCodeOrError _ _ _ >>= fun code => _) = (actionCodeOrError _ _ _ >>= fun code => _)
    rw [hs]
    rfl

theorem blockCode_colored (id : BlockId) (block : Block) (start : Nat) :
    blockCode ⟨prog, debug, true⟩ rt id block start = blockCode ⟨prog, debug, false⟩ rt id block start := by
  have hs : (fun entry : Flow.Statement × Nat => statementCode ⟨prog, debug, true⟩ rt entry.2 entry.1) =
      fun entry => statementCode ⟨prog, debug, false⟩ rt entry.2 entry.1 :=
    funext fun entry => statementCode_colored hp debug hbody entry.2 entry.1
  rw [blockCode_eq, blockCode_eq, hs]

theorem blocksCode_colored (entries : List (BlockId × Block)) (start : Nat) :
    blocksCode ⟨prog, debug, true⟩ rt start entries = blocksCode ⟨prog, debug, false⟩ rt start entries := by
  induction entries generalizing start with
  | nil => rfl
  | cons entry rest ih =>
    rw [blocksCode, blocksCode, blockCode_colored hp debug hbody, ih]

end

theorem subroutineCode_colored {body : Body} (hbody : body.NamesOver IsText) (id : SubroutineId) (sub : Flow.Subroutine) (sym : String) :
    subroutineCode ⟨prog, debug, true⟩ id sub body sym = subroutineCode ⟨prog, debug, false⟩ id sub body sym := by
  refine bind_congr fun exit => bind_congr fun words => bind_congr fun copied => bind_congr fun defaults => ?_
  have hb := @blocksCode_colored prog hp debug ⟨id, sym, body, copied.2, (layoutOf body words).scratch⟩ hbody body.blocks.entries 0
  exact congrArg (· >>= _) hb

theorem emitSubroutine_colored (id : SubroutineId) (em : Emission) :
    emitSubroutine ⟨prog, debug, true⟩ id em = emitSubroutine ⟨prog, debug, false⟩ id em := by
  unfold emitSubroutine
  cases hid : prog.subroutines[id]? with
  | none => rfl
  | some sub =>
    dsimp only
    cases hk : sub.kind with
    | declared => rfl
    | imported library entryPoint => rfl
    | defined body =>
      have hbody : body.NamesOver IsText := hp.values sub (mem_of_getElem? hid) body (by rw [Flow.Subroutine.body?, hk]; rfl)
      refine bind_congr fun name => ?_
      simp only [subroutineCode_colored hp debug hbody]

/-- Work is emitted alike, piece by piece. -/
theorem drain_colored (fuel : Nat) (em : Emission) : drain ⟨prog, debug, true⟩ fuel em = drain ⟨prog, debug, false⟩ fuel em := by
  induction fuel generalizing em with
  | zero => rfl
  | succ fuel ih =>
    cases hq : em.kept.queue with
    | nil => rw [drain_of_queue_eq_nil hq, drain_of_queue_eq_nil hq]
    | cons work queue =>
      rw [drain_succ hq, drain_succ hq]
      have hw : emitWork ⟨prog, debug, true⟩ work (em.waiting queue) = emitWork ⟨prog, debug, false⟩ work (em.waiting queue) := by
        cases work with
        | subroutine id => exact emitSubroutine_colored hp debug id _
        | initializer ty sym => rfl
      rw [hw]
      exact bind_congr fun next => ih next

theorem selectProgram_colored (diags : Diagnostics) :
    selectProgram ⟨prog, debug, true⟩ diags = selectProgram ⟨prog, debug, false⟩ diags := by
  refine bind_congr fun syms => ?_
  exact congrArg (· >>= _) (drain_colored hp debug _ _)

end

end Select

open Select (Both)

/-- Code does not depend on colors. In a program whose subroutines, classes and values have names without control characters below U+0020,
and whatever its literals hold, the same assembler source and the same diagnostics come of it with colors on and off, or the same fault.
When the escape sequences are taken out of a statement in colors, what is left is the statement without colors, but for the characters
from U+0080 to U+009F; and if no name holds one of these, it is all of it. -/
theorem assemble_colored (program : Flow.Program) (debugInfo : Bool) (diagnostics : Diagnostics) (h : program.NamesOver IsText) :
    assemble true debugInfo program diagnostics = assemble false debugInfo program diagnostics ∧
      ∀ subroutine ∈ program.subroutines, ∀ body, subroutine.kind = .defined body → ∀ action,
        Both (fun tinted plain => Plain.strip tinted = Plain.withoutHidden plain ∧
            (program.NamesOver IsShown → Plain.strip tinted = plain))
          (program.actionText body true action) (program.actionText body false action) := by
  refine ⟨?_, fun subroutine hsubroutine body hkind action => ?_⟩
  · unfold assemble
    rw [Select.selectProgram_colored h]
  · have hbody : body ∈ subroutine.body? := by rw [Flow.Subroutine.body?, hkind]; rfl
    by_cases hshown : program.NamesOver IsShown
    · refine (program.weaves_actionText admissible_isShown.weaves hshown (hshown.values subroutine hsubroutine body hbody) action).mono ?_
      exact fun tinted plain htints => ⟨htints.strip_eq, fun _ => htints.strip_eq.trans (withoutHidden_of_over htints.chars)⟩
    · refine (program.weaves_actionText admissible_isText.weaves h (h.values subroutine hsubroutine body hbody) action).mono ?_
      exact fun tinted plain htints => ⟨htints.strip_eq, fun hnames => absurd hnames hshown⟩

/-- A body whose one variable has the character for the next line in its name. It is set to a string that would switch a color on. -/
def nextLineBody : Flow.Body where
  returnValue := 0
  parameters := []
  locals := [1]
  temporaries := []
  values := [⟨0, none, 0⟩, ⟨1, some ⟨"a\u0085", .unknown⟩, 1⟩]
  blocks := [⟨[⟨.assign 1 (.literal 0), .unknown⟩], .jump 1, []⟩, ⟨[], .sink, []⟩]
  entry := 0
  sink := 1

/-- A program of one subroutine with that body. -/
def nextLine : Flow.Program where
  files := []
  types := ⟨[.void, .primitive .string, .function [] 0]⟩
  classNames := []
  subroutines := [⟨⟨"f", .unknown⟩, 2, .internal, none, .defined nextLineBody⟩]
  defined := [0]
  declared := []
  imported := []
  methods := []
  classes := []
  literals := [⟨0, 1, .string "\x1b[31m"⟩]
  entry := none

theorem nextLine_namesOver : nextLine.NamesOver IsText := by
  refine ⟨forall_mem_nil _, fun sub hs => ?_, fun sub hs body hbody => ?_⟩
  · obtain rfl := mem_singleton.mp hs
    decide
  · obtain rfl := mem_singleton.mp hs
    cases hbody
    unfold Flow.Body.NamesOver
    decide

/-- The character for the next line is not shown, so it is lost when the escape sequences are taken out. -/
theorem nextLine_not_shown : nextLine.NamesOver IsText ∧ ∃ tinted plain,
    nextLine.actionText nextLineBody true (.assign 1 (.literal 0)) = .ok tinted ∧
    nextLine.actionText nextLineBody false (.assign 1 (.literal 0)) = .ok plain ∧
    plain = "%1.a\u0085 <- \"\\u\x7b1b\x7d[31m\"" ∧ Plain.strip tinted ≠ plain := by
  refine ⟨nextLine_namesOver, _, _, rfl, rfl, ?_, ?_⟩
  · decide +kernel
  · decide +kernel

/-- The source of that program is the same with colors on and off, and there is one. -/
theorem assemble_colored_nextLine :
    ∃ text, assemble true true nextLine [] = .ok (text, []) ∧ assemble false true nextLine [] = .ok (text, []) ∧
      ∃ tinted plain, nextLine.actionText nextLineBody true (.assign 1 (.literal 0)) = .ok tinted ∧
        nextLine.actionText nextLineBody false (.assign 1 (.literal 0)) = .ok plain ∧
        Plain.strip tinted = Plain.withoutHidden plain := by
  obtain ⟨hsame, hstatements⟩ := assemble_colored nextLine true [] nextLine_namesOver
  have hquiet : (assemble false true nextLine []).map (fun result => result.2) = .ok [] := by decide +kernel
  obtain ⟨⟨text, reports⟩, hplain, rfl⟩ := exists_of_map_eq_ok hquiet
  refine ⟨text, hsame.trans hplain, hplain, ?_⟩
  have hboth := hstatements _ (mem_singleton_self _) nextLineBody rfl (.assign 1 (.literal 0))
  refine ⟨_, _, rfl, rfl, ?_⟩
  cases hboth with
  | result h => exact h.1

end TagAsm
