import Mathlib.Data.List.Infix
import TagAsm.Lower.Stmt
import TagAsm.Proofs.Renumbering
import TagAsm.Select.Routine

/-!
# Statements in sequence

While an expression is lowered, values and literals have their positions as ids, the temporaries are the values behind the declared
ones, and statements mention only values and literals that exist. Lowering numbers values in the order in which it makes them, and
a value that it makes is written at once. So a statement that makes a value comes before all others that mention it, and a value
that the source does not name is assigned to only if it receives an address, or if nothing mentioned it before (`Follows`). All of
that happens within the code at hand: an expression mentions what is declared, and what was made since its lowering began
(`Draft.Adds`). Every operation on the code at hand keeps that, so everything that is put together from them does, on its error
branches too.
-/

namespace TagAsm.Diagnostics

/-- The second list is the first with errors of one stage added at the end. -/
def Adds (stage : Stage) (before after : Diagnostics) : Prop :=
  ∃ added : Diagnostics, after = before ++ added ∧ ∀ diag ∈ added, diag.stage = stage ∧ diag.isError = true

theorem Adds.refl (stage : Stage) (diags : Diagnostics) : Adds stage diags diags :=
  ⟨[], (List.append_nil _).symm, fun _ h => (List.not_mem_nil h).elim⟩

theorem Adds.trans {stage : Stage} {a b c : Diagnostics} (hab : Adds stage a b) (hbc : Adds stage b c) : Adds stage a c := by
  obtain ⟨first, rfl, hf⟩ := hab
  obtain ⟨rest, rfl, hr⟩ := hbc
  exact ⟨first ++ rest, List.append_assoc _ _ _, List.forall_mem_append.mpr ⟨hf, hr⟩⟩

theorem Adds.error (stage : Stage) (diags : Diagnostics) (kind : DiagnosticKind) (loc : Location) (msg : String) :
    Adds stage diags (diags ++ [.error stage kind loc msg]) :=
  ⟨[.error stage kind loc msg], rfl, List.forall_mem_singleton.mpr ⟨rfl, rfl⟩⟩

end TagAsm.Diagnostics

namespace TagAsm.Flow

open List Statement

/-- The literals that a statement mentions. -/
def Statement.literals (stmt : Statement) : List LiteralId :=
  match stmt.action with
  | .member _ _ name | .memberRef _ _ name => [name]
  | .assign _ (.literal id) => [id]
  | _ => []

/-- The literal with the name of the member that a statement takes. -/
def Statement.memberName? (stmt : Statement) : Option LiteralId :=
  match stmt.action with
  | .member _ _ name | .memberRef _ _ name => some name
  | _ => none

/-- A statement on `vals` values that takes its constants from the pool: all it mentions exists, and members are named by
string literals. -/
structure Statement.Sound (vals : Nat) (pool : Table Literal) (stmt : Statement) : Prop where
  values_lt : ∀ val ∈ stmt.values, val < vals
  literals_lt : ∀ id ∈ stmt.literals, id < pool.length
  name_string : ∀ name ∈ stmt.memberName?, ∃ literal text, pool[name]? = some literal ∧ literal.value = .string text

variable {pool pool' : Table Literal}

/-- A literal with a text is found in every larger pool. -/
theorem exists_string_mono (hpl : pool <+: pool') {name : LiteralId} (h : ∃ lit text, pool[name]? = some lit ∧ lit.value = .string text) :
    ∃ lit text, pool'[name]? = some lit ∧ lit.value = .string text := by
  obtain ⟨lit, text, hl, ht⟩ := h
  obtain ⟨rest, rfl⟩ := hpl
  have hlt := (List.getElem?_eq_some_iff.mp hl).1
  exact ⟨lit, text, (getElem?_append_left hlt).trans hl, ht⟩

/-- The pool has the literals that a statement mentions, and members are named by string literals. -/
structure Statement.Draws (pool : Table Literal) (stmt : Statement) : Prop where
  literals_lt : ∀ id ∈ stmt.literals, id < pool.length
  name_string : ∀ name ∈ stmt.memberName?, ∃ literal text, pool[name]? = some literal ∧ literal.value = .string text

variable {stmt : Statement}

theorem Statement.draws_of_none (hl : stmt.literals = []) (hn : stmt.memberName? = none) : stmt.Draws pool := ⟨by simp [hl], by simp [hn]⟩

/-- With more values and more literals a statement stays sound. -/
theorem Statement.Sound.mono {vals values' : Nat} (h : stmt.Sound vals pool) (hvs : vals ≤ values')
    (hpl : pool <+: pool') : stmt.Sound values' pool' :=
  ⟨fun val hv => lt_of_lt_of_le (h.values_lt val hv) hvs, fun id hid => lt_of_lt_of_le (h.literals_lt id hid) hpl.length_le,
    fun name hn => exists_string_mono hpl (h.name_string name hn)⟩

/-- A statement of a body with so many declared values: an address is kept in a value that the source does not name, and only
printing has no result. -/
structure Statement.Placed (declared : Nat) (stmt : Statement) : Prop where
  reference_ge : ∀ val, Select.referenceResult? stmt = some val → declared ≤ val
  result_isSome : ∀ kind tmpl res args, stmt.action = .builtin kind tmpl res args → kind ≠ .print → res.isSome = true

/-! ## What statements do with values -/

namespace Statement

/-- The value that a statement makes. An assignment makes none. -/
def result? (stmt : Statement) : Option ValueId :=
  match stmt.action with
  | .operator _ res _ | .call res _ _ | .member res _ _ | .memberRef res _ _ => some res
  | .builtin _ _ res _ => res
  | .assign .. => none

/-- The value that a statement assigns to. -/
def destination? (stmt : Statement) : Option ValueId :=
  match stmt.action with
  | .assign dst _ => some dst
  | _ => none

/-- The value that a statement writes. -/
def written? (stmt : Statement) : Option ValueId := stmt.result? <|> stmt.destination?

/-- The values that a statement takes. -/
def operands (stmt : Statement) : List ValueId :=
  match stmt.action with
  | .operator _ _ args | .call _ _ args | .builtin _ _ _ args => args
  | .member _ object _ | .memberRef _ object _ => [object]
  | .assign _ (.value src) => [src]
  | .assign _ _ => []

/-- The values that a call of a subroutine passes. -/
def passed (stmt : Statement) : List ValueId :=
  match stmt.action with
  | .call _ _ args => args
  | _ => []

variable {stmt : Statement} {val : ValueId}

theorem mem_values : val ∈ stmt.values ↔ stmt.written? = some val ∨ val ∈ stmt.operands := by
  obtain ⟨act, loc⟩ := stmt
  cases act with
  | builtin kind tmpl res args => cases res <;> simp [values, written?, result?, destination?, operands, eq_comm]
  | assign dst src => cases src <;> simp [values, written?, result?, destination?, operands, eq_comm]
  | _ => simp [values, written?, result?, destination?, operands, eq_comm]

theorem written?_of_result? (h : stmt.result? = some val) : stmt.written? = some val := by
  rw [written?, h]
  rfl

theorem written?_of_destination? (h : stmt.destination? = some val) : stmt.written? = some val := by
  obtain ⟨act, loc⟩ := stmt
  cases act with
  | assign dst src => exact h
  | _ => cases h

theorem passed_subset (stmt : Statement) : stmt.passed ⊆ stmt.operands := by
  obtain ⟨act, loc⟩ := stmt
  cases act <;> simp [passed, operands]

/-- A statement that receives an address makes the value that it goes to. -/
theorem result?_of_reference (h : Select.referenceResult? stmt = some val) : stmt.result? = some val := by
  obtain ⟨act, loc⟩ := stmt
  cases act with
  | operator kind res args => cases kind <;> simp_all [Select.referenceResult?, result?]
  | memberRef res obj name => exact h
  | _ => cases h

end Statement

/-- The values that code mentions. -/
def mentions (code : List Statement) : List ValueId := code.flatMap Statement.values

/-- The values to which code gives addresses. -/
def references (code : List Statement) : List ValueId := code.filterMap Select.referenceResult?

variable (first rest : List Statement)

@[simp] theorem mentions_append : mentions (first ++ rest) = mentions first ++ mentions rest := flatMap_append

@[simp] theorem mentions_singleton (stmt : Statement) : mentions [stmt] = stmt.values := flatMap_singleton ..

@[simp] theorem references_append : references (first ++ rest) = references first ++ references rest := filterMap_append

theorem mem_references_singleton {val : ValueId} : val ∈ references [stmt] ↔ Select.referenceResult? stmt = some val := by
  rw [references, mem_filterMap]
  simp

theorem mem_mentions_of_written {code : List Statement} {val : ValueId} (hmem : stmt ∈ code)
    (h : stmt.written? = some val) : val ∈ mentions code :=
  mem_flatMap.mpr ⟨stmt, hmem, mem_values.mpr (Or.inl h)⟩

theorem references_subset_mentions (code : List Statement) : references code ⊆ mentions code := by
  intro val hv
  obtain ⟨stmt, hmem, hs⟩ := mem_filterMap.mp hv
  exact mem_mentions_of_written hmem (written?_of_result? (result?_of_reference hs))

/-! ## What may come next -/

/-- The statement may come after this code, where so many values are declared: what it makes is new and not declared; it assigns to
what is declared, to what received an address, or to what is new; and a call passes neither an address nor the return value. -/
structure Follows (declared : Nat) (returnValue : ValueId) (before : List Statement) (stmt : Statement) : Prop where
  result : ∀ val, stmt.result? = some val → declared ≤ val ∧ val ∉ mentions before ∧ val ∉ stmt.operands
  destination : ∀ val, stmt.destination? = some val → val < declared ∨ val ∈ references before ∨ val ∉ mentions before
  passed : ∀ val ∈ stmt.passed, val ∉ references before ∧ val ≠ returnValue

/-- What follows in sequence is placed, if it has the result that it needs. -/
theorem Follows.placed {declared : Nat} {returnValue : ValueId} {before : List Statement}
    (h : Follows declared returnValue before stmt) (hr : ∀ kind tmpl res args,
      stmt.action = .builtin kind tmpl res args → kind ≠ .print → res.isSome = true) :
    stmt.Placed declared :=
  ⟨fun val hv => (h.result val (result?_of_reference hv)).1, hr⟩

/-- Every statement may come after what is before it. -/
def Sequenced (declared : Nat) (returnValue : ValueId) (code : List Statement) : Prop :=
  ∀ before stmt after, code = before ++ stmt :: after → Follows declared returnValue before stmt

namespace Sequenced

variable {declared : Nat} {returnValue : ValueId} {code first rest : List Statement}

theorem nil : Sequenced declared returnValue [] := by
  intro before stmt after h
  simp at h

/-- Code is in sequence if its first part is, and the rest may come after it. -/
theorem append_of_follows (hf : Sequenced declared returnValue first) (hr : ∀ before stmt after, rest = before ++ stmt :: after →
      Follows declared returnValue (first ++ before) stmt) : Sequenced declared returnValue (first ++ rest) := by
  intro before stmt after h
  rcases append_eq_append_iff.mp h with ⟨mid, rfl, hs⟩ | ⟨mid, rfl, hs⟩
  · exact hr mid stmt after hs
  · cases mid with
    | nil => simpa using hr [] stmt after hs.symm
    | cons head mid =>
      cases hs
      exact hf before stmt mid rfl

theorem concat (h : Sequenced declared returnValue code) {stmt : Statement}
    (hst : Follows declared returnValue code stmt) : Sequenced declared returnValue (code ++ [stmt]) := by
  refine h.append_of_follows fun before found after hs => ?_
  rcases append_eq_singleton_iff.mp hs.symm with ⟨rfl, heq⟩ | ⟨rfl, heq⟩
  · rw [append_nil]
    exact (cons.inj heq).1 ▸ hst
  · cases heq

/-- Addresses are received by values that are not declared. -/
theorem le_of_mem_references (h : Sequenced declared returnValue code) {val : ValueId} (hv : val ∈ references code) : declared ≤ val := by
  obtain ⟨stmt, hmem, hst⟩ := mem_filterMap.mp hv
  obtain ⟨before, after, hs⟩ := append_of_mem hmem
  exact ((h before stmt after hs).result val (result?_of_reference hst)).1

/-- Codes in sequence that share no more than declared values may follow each other. -/
theorem append (hfr : Sequenced declared returnValue first) (hrs : Sequenced declared returnValue rest)
    (ha : ∀ val ∈ mentions first, val ∈ mentions rest → val < declared) :
    Sequenced declared returnValue (first ++ rest) := by
  refine hfr.append_of_follows fun before stmt after hs => ?_
  have hf := hrs before stmt after hs
  have hmem : stmt ∈ rest := by simp [hs]
  refine ⟨fun val hv => ?_, fun val hv => ?_, fun val hv => ?_⟩
  · obtain ⟨hge, hnew, ho⟩ := hf.result val hv
    have hm := mem_mentions_of_written hmem (written?_of_result? hv)
    refine ⟨hge, ?_, ho⟩
    rw [mentions_append, mem_append, not_or]
    exact ⟨fun hold => absurd (ha val hold hm) (Nat.not_lt.mpr hge), hnew⟩
  · have hm := mem_mentions_of_written hmem (written?_of_destination? hv)
    rcases hf.destination val hv with hlt | hr | hnew
    · exact Or.inl hlt
    · exact Or.inr (Or.inl (by simp [hr]))
    · by_cases hold : val ∈ mentions first
      · exact Or.inl (ha val hold hm)
      · exact Or.inr (Or.inr (by simp [hold, hnew]))
  · obtain ⟨hp, hne⟩ := hf.passed val hv
    refine ⟨?_, hne⟩
    have hm : val ∈ mentions rest := mem_flatMap.mpr ⟨stmt, hmem, mem_values.mpr (Or.inr (stmt.passed_subset hv))⟩
    rw [references_append, mem_append, not_or]
    refine ⟨fun hold => ?_, hp⟩
    have hlt := ha val (references_subset_mentions first hold) hm
    exact absurd hlt (Nat.not_lt.mpr (hfr.le_of_mem_references hold))

end Sequenced

end TagAsm.Flow

namespace TagAsm.Lower

open TagAsm.Flow List Statement
open Source (Expr ExprInfo)

/-! ## The code at hand -/

/-- What was there when the lowering of a body started: so many declared values, the return value among them, and so many literals. -/
structure Start where
  declared : Nat
  returnValue : ValueId
  pooled : Nat

/-- Values and literals have their positions as ids, and the temporaries are the values behind the declared ones. -/
structure Draft.Numbered (start : Start) (draft : Draft) : Prop where
  declared_le : start.declared ≤ draft.values.length
  returnValue_lt : start.returnValue < start.declared
  values_id : ∀ (id : ValueId) (val : Value), draft.values[id]? = some val → val.id = id
  temporaries_eq : draft.temporaries = List.range' start.declared (draft.values.length - start.declared)
  literals_id : ∀ (id : LiteralId) (lit : Literal), start.pooled ≤ id → draft.literals[id]? = some lit → lit.id = id

/-- Code in sequence that mentions nothing that the draft does not have. -/
structure CodeSound (start : Start) (draft : Draft) (code : List Statement) : Prop where
  sound : ∀ stmt ∈ code, stmt.Sound draft.values.length draft.literals
  placed : ∀ stmt ∈ code, stmt.Placed start.declared
  sequenced : Sequenced start.declared start.returnValue code

variable {start : Start} {draft : Draft}

theorem CodeSound.nil : CodeSound start draft [] := ⟨forall_mem_nil _, forall_mem_nil _, .nil⟩

variable {later : Draft} {code : List Statement}

theorem CodeSound.mono (h : CodeSound start draft code) (hv : draft.values.length ≤ later.values.length)
    (hl : draft.literals <+: later.literals) : CodeSound start later code :=
  ⟨fun stmt hs => (h.sound stmt hs).mono hv hl, h.placed, h.sequenced⟩

theorem CodeSound.mentions_lt (h : CodeSound start draft code) {val : ValueId} (hv : val ∈ mentions code) :
    val < draft.values.length := by
  obtain ⟨stmt, hmem, hv⟩ := mem_flatMap.mp hv
  exact (h.sound stmt hmem).values_lt val hv

/-- The code at hand is sound, where the lowering of what is lowered now began with `floor` values. -/
structure Draft.InOrder (start : Start) (floor : Nat) (draft : Draft) : Prop extends draft.Numbered start where
  floor_le : floor ≤ draft.values.length
  code : CodeSound start draft draft.code

theorem Draft.InOrder.restart {floor : Nat} (h : draft.InOrder start floor) : draft.InOrder start draft.values.length :=
  ⟨h.toNumbered, le_refl _, h.code⟩

/-- Values, literals and errors were added at the end, and the code at hand grew by statements that mention declared values and
values from `floor` on. -/
structure Draft.Adds (start : Start) (floor : Nat) (draft later : Draft) : Prop where
  values : draft.values.length ≤ later.values.length
  literals : draft.literals <+: later.literals
  diagnostics : Diagnostics.Adds .lowering draft.diagnostics later.diagnostics
  blocks : later.blocks = draft.blocks
  code : ∃ added, later.code = draft.code ++ added ∧ ∀ val ∈ mentions added, val < start.declared ∨ floor ≤ val

namespace Draft.Adds

variable {start : Start} {floor : Nat} {draft later last : Draft}

theorem of_code_eq (hv : draft.values.length ≤ later.values.length) (hl : draft.literals <+: later.literals)
    (hd : Diagnostics.Adds .lowering draft.diagnostics later.diagnostics) (hb : later.blocks = draft.blocks)
    (hc : later.code = draft.code) : draft.Adds start floor later :=
  ⟨hv, hl, hd, hb, [], hc.trans (append_nil _).symm, forall_mem_nil _⟩

theorem refl : draft.Adds start floor draft := of_code_eq (le_refl _) (prefix_refl _) (.refl _ _) rfl rfl

theorem trans (h : draft.Adds start floor later) (h' : later.Adds start floor last) : draft.Adds start floor last := by
  obtain ⟨first, hf, hn⟩ := h.code
  obtain ⟨rest, hr, hn'⟩ := h'.code
  refine ⟨h.values.trans h'.values, h.literals.trans h'.literals, h.diagnostics.trans h'.diagnostics, h'.blocks.trans h.blocks,
    first ++ rest, ?_, ?_⟩
  · rw [hr, hf, append_assoc]
  · rw [mentions_append]
    exact forall_mem_append.mpr ⟨hn, hn'⟩

theorem lower {floor' : Nat} (h : draft.Adds start floor' later) (hle : floor ≤ floor') : draft.Adds start floor later := by
  obtain ⟨added, ha, hn⟩ := h.code
  exact ⟨h.values, h.literals, h.diagnostics, h.blocks, added, ha, fun val hv => (hn val hv).imp_right hle.trans⟩

/-- A value from before receives no address any more. -/
theorem not_mem_references (h : draft.Adds start draft.values.length later) (hl : later.InOrder start floor) {val : ValueId}
    (hlt : val < draft.values.length) (hp : val ∉ references draft.code) : val ∉ references later.code := by
  intro hmem
  have hge := hl.code.sequenced.le_of_mem_references hmem
  obtain ⟨added, ha, hn⟩ := h.code
  rw [ha, references_append, mem_append] at hmem
  rcases hmem with hold | hnew
  · exact hp hold
  · rcases hn val (references_subset_mentions added hnew) with hd | hf
    · exact absurd hd (Nat.not_lt.mpr hge)
    · exact absurd hlt (Nat.not_lt.mpr hf)

end Draft.Adds

/-- The action adds to the code at hand, which stays sound, and its result satisfies `post`. -/
structure Appends (start : Start) (floor : Nat) {α : Type} (draft : Draft) (act : LowerM α) (post : α → Draft → Prop) : Prop where
  adds : draft.Adds start floor (act.run draft).2
  inOrder : (act.run draft).2.InOrder start floor
  result : post (act.run draft).1 (act.run draft).2

namespace Appends

variable {α β : Type} {start : Start} {floor : Nat} {draft : Draft} {post : α → Draft → Prop}

theorem pure {res : α} (h : draft.InOrder start floor) (hps : post res draft) : Appends start floor draft (Pure.pure res) post :=
  ⟨.refl, h, hps⟩

theorem bind {first : LowerM α} {next : α → LowerM β} {mid : α → Draft → Prop} {post : β → Draft → Prop}
    (hf : Appends start floor draft first mid)
    (hn : ∀ res later, draft.Adds start floor later → later.InOrder start floor → mid res later →
      Appends start floor later (next res) post) : Appends start floor draft (first >>= next) post := by
  have h := hn _ _ hf.adds hf.inOrder hf.result
  exact ⟨hf.adds.trans h.adds, h.inOrder, h.result⟩

variable {act : LowerM α} {post' : α → Draft → Prop}

theorem imp (h : Appends start floor draft act post) (himp : ∀ res later, post res later → post' res later) :
    Appends start floor draft act post' :=
  ⟨h.adds, h.inOrder, himp _ _ h.result⟩

/-- What is lowered within something larger, whose lowering began at the lower floor. -/
theorem within (h : Appends start draft.values.length draft act post) (hd : draft.InOrder start floor)
    (himp : ∀ res later, draft.Adds start draft.values.length later → post res later → post' res later) :
    Appends start floor draft act post' :=
  ⟨h.adds.lower hd.floor_le, ⟨h.inOrder.toNumbered, hd.floor_le.trans h.adds.values, h.inOrder.code⟩, himp _ _ h.adds h.result⟩

end Appends

/-- A value that a statement may take. -/
structure Fit (start : Start) (floor : Nat) (draft : Draft) (val : ValueId) : Prop where
  lt : val < draft.values.length
  ne : val ≠ start.returnValue
  near : val < start.declared ∨ floor ≤ val

/-- A value that a call may pass. -/
structure Passable (start : Start) (floor : Nat) (draft : Draft) (val : ValueId) : Prop extends Fit start floor draft val where
  plain : val ∉ references draft.code

section

variable {start : Start} {floor floor' : Nat} {draft later : Draft} {val : ValueId}

theorem Fit.mono (h : Fit start floor draft val) (ha : draft.Adds start floor' later) : Fit start floor later val :=
  ⟨lt_of_lt_of_le h.lt ha.values, h.ne, h.near⟩

theorem Fit.lower (h : Fit start floor' draft val) (hle : floor ≤ floor') : Fit start floor draft val :=
  ⟨h.lt, h.ne, h.near.imp_right hle.trans⟩

theorem Passable.lower (h : Passable start floor' draft val) (hle : floor ≤ floor') : Passable start floor draft val :=
  ⟨h.toFit.lower hle, h.plain⟩

theorem Passable.mono (h : Passable start floor draft val) (ha : draft.Adds start draft.values.length later)
    (hl : later.InOrder start floor') : Passable start floor later val :=
  ⟨h.toFit.mono ha, ha.not_mem_references hl h.lt h.plain⟩

/-! ## Operations on the code at hand -/

/-- A table whose rows have their positions as ids keeps that when a row gets the next id. -/
theorem id_eq_of_push {α : Type} {idOf : α → Nat} {rows : Table α} {row : α}
    (id : Nat) (found : α) (h : rows[id]? = some found → idOf found = id) (hrow : idOf row = rows.nextId)
    (hf : (rows.push row)[id]? = some found) : idOf found = id := by
  have hlt := (List.getElem?_eq_some_iff.mp hf).1
  rw [Table.length_push] at hlt
  rcases Nat.lt_succ_iff_lt_or_eq.mp hlt with hlt | rfl
  · rw [Table.getElem?_push_of_lt hlt] at hf
    exact h hf
  · have hl := Table.getElem?_push_nextId rows row
    rw [Table.nextId, hf] at hl
    rw [Option.some.inj hl, hrow, Table.nextId]

section

variable (h : draft.InOrder start floor)
include h

theorem temporary_appends (ty : TypeId) :
    Appends start floor draft (temporary ty) (fun res later => res = draft.values.length ∧ later.code = draft.code ∧
      later.literals = draft.literals ∧ Fit start floor later res) := by
  have hg : draft.values.length < (draft.addTemporary ty).values.length := by
    rw [Draft.addTemporary, Table.push, length_append]
    exact Nat.lt_succ_self _
  have hle := h.declared_le
  refine ⟨.of_code_eq hg.le (prefix_refl _) (.refl _ _) rfl rfl, ⟨⟨hle.trans hg.le, h.returnValue_lt, ?_, ?_,
    h.literals_id⟩, h.floor_le.trans hg.le, h.code.mono hg.le (prefix_refl _)⟩, rfl, rfl, rfl,
    ⟨hg, (h.returnValue_lt.trans_le hle).ne', Or.inr h.floor_le⟩⟩
  · exact fun id val => id_eq_of_push id val (h.values_id id val) rfl
  · show draft.temporaries ++ [draft.values.length] = range' start.declared ((draft.values.push _).length - start.declared)
    rw [Table.length_push, h.temporaries_eq, Nat.succ_sub hle, Nat.succ_eq_add_one, range'_concat]
    congr 2
    omega

theorem literal_appends (ty : TypeId) (constant : LiteralValue) : Appends start floor draft (literal ty constant) (fun id later =>
      ∃ literal, later.literals[id]? = some literal ∧ literal.value = constant) := by
  have hpl : draft.literals <+: (draft.addLiteral ty constant).literals := prefix_append _ _
  refine ⟨.of_code_eq (le_refl _) hpl (.refl _ _) rfl rfl, ⟨⟨h.declared_le, h.returnValue_lt, h.values_id, h.temporaries_eq, ?_⟩,
    h.floor_le, h.code.mono (le_refl _) hpl⟩, ⟨draft.literals.nextId, ty, constant⟩, Table.getElem?_push_nextId _ _, rfl⟩
  exact fun id found hid => id_eq_of_push id found (h.literals_id id found hid) rfl

theorem error_appends (kind : DiagnosticKind) (loc : Location) (msg : String) :
    Appends start floor draft (error kind loc msg) (fun _ _ => True) :=
  ⟨.of_code_eq (le_refl _) (prefix_refl _) (.error _ _ _ _ _) rfl rfl, ⟨⟨h.declared_le, h.returnValue_lt, h.values_id,
    h.temporaries_eq, h.literals_id⟩, h.floor_le, ⟨h.code.sound, h.code.placed, h.code.sequenced⟩⟩, trivial⟩

theorem emit_appends {act : Action} {loc : Location} (hf : Follows start.declared start.returnValue draft.code ⟨act, loc⟩)
    (hvs : ∀ val ∈ (⟨act, loc⟩ : Statement).values, val < draft.values.length ∧
      (val < start.declared ∨ floor ≤ val)) (hd : Draws draft.literals ⟨act, loc⟩)
    (hr : ∀ kind tmpl res args, act = .builtin kind tmpl res args → kind ≠ .print → res.isSome = true) :
    Appends start floor draft (emit act loc) (fun _ later => later.code = draft.code ++ [⟨act, loc⟩]) := by
  refine ⟨⟨le_refl _, prefix_refl _, .refl _ _, rfl, [⟨act, loc⟩], rfl, ?_⟩, ⟨⟨h.declared_le, h.returnValue_lt,
    h.values_id, h.temporaries_eq, h.literals_id⟩, h.floor_le, ⟨?_, ?_, h.code.sequenced.concat hf⟩⟩, rfl⟩
  · rw [mentions_singleton]
    exact fun val hv => (hvs val hv).2
  · exact forall_mem_append.mpr ⟨h.code.sound, forall_mem_singleton.mpr ⟨fun val hv => (hvs val hv).1, hd.literals_lt, hd.name_string⟩⟩
  · exact forall_mem_append.mpr ⟨h.code.placed, forall_mem_singleton.mpr (hf.placed hr)⟩

end

/-- A statement was added for a value that nothing mentioned before, and the value is fit. -/
structure Made (start : Start) (floor : Nat) (draft later : Draft) (stmt : Statement) (val : ValueId) : Prop where
  fit : Fit start floor later val
  new : val ∉ references draft.code
  code : later.code = draft.code ++ [stmt]

variable {stmt : Statement}

section

variable (h : Made start floor draft later stmt val)
include h

theorem Made.mem_references_iff : val ∈ references later.code ↔ Select.referenceResult? stmt = some val := by
  rw [h.code, references_append, mem_append, mem_references_singleton]
  exact or_iff_right h.new

variable (hp : Select.referenceResult? stmt = none)
include hp

/-- A statement that receives no address leaves the references as they are. -/
theorem Made.references_eq : references later.code = references draft.code := by
  have hn : references [stmt] = [] := by rw [references, filterMap_cons_none hp, filterMap_nil]
  rw [h.code, references_append, hn, append_nil]

theorem Made.passable : Passable start floor later val := ⟨h.fit, h.references_eq hp ▸ h.new⟩

end

/-- A new value, written by a statement that takes fit values. -/
theorem make_appends (h : draft.InOrder start floor) (ty : TypeId) (act : ValueId → Action) (loc : Location)
    (hw : ∀ res, (⟨act res, loc⟩ : Statement).written? = some res)
    (ho : ∀ res, ∀ val ∈ (⟨act res, loc⟩ : Statement).operands, Fit start floor draft val)
    (hps : ∀ res, ∀ val ∈ (⟨act res, loc⟩ : Statement).passed, val ∉ references draft.code)
    (hd : ∀ res, Draws draft.literals ⟨act res, loc⟩)
    {α : Type} {view : ValueId → α} {post : α → Draft → Prop}
    (hpt : ∀ res later, draft.Adds start floor later → Made start floor draft later ⟨act res, loc⟩ res → post (view res) later) :
    Appends start floor draft (do let res ← temporary ty; emit (act res) loc; return view res) post := by
  refine .bind (temporary_appends h ty) fun res d₁ ha₁ h₁ ⟨hr, hc, hpl, hfit⟩ => ?_
  have hnew : res ∉ mentions d₁.code := by
    rw [hc, hr]
    exact fun hmem => absurd (h.code.mentions_lt hmem) (lt_irrefl _)
  have hge : start.declared ≤ res := hr ▸ h.declared_le
  have hfl : Follows start.declared start.returnValue d₁.code ⟨act res, loc⟩ := by
    refine ⟨fun val hv => ?_, fun val hv => ?_, fun val hv => ?_⟩
    · cases (hw res).symm.trans (written?_of_result? hv)
      refine ⟨hge, hnew, fun hmem => ?_⟩
      exact absurd (ho _ _ hmem).lt (Nat.not_lt.mpr (le_of_eq hr.symm))
    · cases (hw res).symm.trans (written?_of_destination? hv)
      exact Or.inr (Or.inr hnew)
    · rw [hc]
      exact ⟨hps res val hv, (ho res val (passed_subset _ hv)).ne⟩
  have hvs : ∀ val ∈ (⟨act res, loc⟩ : Statement).values, val < d₁.values.length ∧ (val < start.declared ∨ floor ≤ val) := by
    intro val hv
    rcases mem_values.mp hv with hs | hmem
    · cases (hw res).symm.trans hs
      exact ⟨hfit.lt, hfit.near⟩
    · have hop := (ho res val hmem).mono ha₁
      exact ⟨hop.lt, hop.near⟩
  have hb : ∀ kind tmpl found args, act res = .builtin kind tmpl found args → kind ≠ .print → found.isSome = true := by
    intro kind tmpl found args heq _
    have hf := hw res
    rw [heq] at hf
    cases found with
    | none => cases hf
    | some found => rfl
  refine .bind (emit_appends h₁ hfl hvs (hpl ▸ hd res) hb) fun _ d₂ ha₂ h₂ hc₂ => .pure h₂ ?_
  refine hpt res d₂ (ha₁.trans ha₂) ⟨hfit.mono ha₂, fun hmem => hnew ?_, hc ▸ hc₂⟩
  exact references_subset_mentions _ (hc ▸ hmem)

end

/-! ## Expressions -/

/-- A value that may be assigned to. -/
def Draft.IsTarget (start : Start) (draft : Draft) (val : ValueId) : Prop :=
  val < start.declared ∨ val ∈ references draft.code ∨ val ∉ mentions draft.code

/-- A value from before that may be assigned to may be so later. -/
theorem Draft.IsTarget.mono {val : ValueId} (h : draft.IsTarget start val) (hlt : val < draft.values.length)
    (had : draft.Adds start draft.values.length later) : later.IsTarget start val := by
  obtain ⟨added, ha, hn⟩ := had.code
  unfold IsTarget
  rw [ha, references_append, mentions_append, mem_append, mem_append, not_or]
  rcases h with hd | hr | hnew
  · exact Or.inl hd
  · exact Or.inr (Or.inl (Or.inl hr))
  · by_cases hmem : val ∈ mentions added
    · exact Or.inl ((hn val hmem).resolve_right (Nat.not_le.mpr hlt))
    · exact Or.inr (Or.inr ⟨hnew, hmem⟩)

/-- The values of a lowered expression may be taken, its value may be passed if it is no reference, and assigned to if the
expression was lowered as a target (`tgt`). -/
structure Lowered.Lands (start : Start) (floor : Nat) (tgt : Bool) (low : Lowered) (draft : Draft) : Prop where
  value : Fit start floor draft low.value
  object : ∀ object ∈ low.object, Fit start floor draft object
  plain : low.isReference = false → low.value ∉ references draft.code
  isTarget : tgt = true → draft.IsTarget start low.value

/-- The values that an assignment takes. -/
def sourceValues : AssignSource → List ValueId
  | .value id => [id]
  | _ => []

/-- What an assignment takes is there. -/
structure Supplies (start : Start) (floor : Nat) (src : AssignSource) (draft : Draft) : Prop where
  fit : ∀ val ∈ sourceValues src, Fit start floor draft val
  pooled : ∀ id, src = .literal id → id < draft.literals.length

/-- The variables and the return value of a function are among its declared values. -/
structure Scope.Declares (scope : Scope) (declared : Nat) : Prop where
  bindings_lt : ∀ id val, scope.bindings.lookup id = some val → val < declared
  returnValue_lt : scope.returnValue < declared

/-- The variables of a function are declared, and none of them is the return value. -/
structure Scope.Names (scope : Scope) (start : Start) : Prop extends scope.Declares start.declared where
  bindings_ne : ∀ id val, scope.bindings.lookup id = some val → val ≠ start.returnValue

section

variable {start : Start} {floor : Nat} {draft later : Draft} {tgt : Bool} {low : Lowered}

theorem Lowered.Lands.lower {floor' : Nat} (h : low.Lands start floor' tgt draft) (hle : floor ≤ floor') :
    low.Lands start floor tgt draft :=
  ⟨h.value.lower hle, fun obj ho => (h.object obj ho).lower hle, h.plain, h.isTarget⟩

theorem Appends.landsWithin {act : LowerM Lowered}
    (h : Appends start draft.values.length draft act (Lowered.Lands start draft.values.length tgt))
    (hd : draft.InOrder start floor) : Appends start floor draft act (Lowered.Lands start floor tgt) :=
  h.within hd fun _ _ _ hl => hl.lower hd.floor_le

theorem Appends.passableWithin {act : LowerM (List ValueId)} (h : Appends start draft.values.length draft act (fun vals later =>
      ∀ val ∈ vals, Passable start draft.values.length later val)) (hd : draft.InOrder start floor) :
    Appends start floor draft act (fun vals later =>
      draft.Adds start draft.values.length later ∧ ∀ val ∈ vals, Passable start floor later val) :=
  h.within hd fun _ _ ha hvs => ⟨ha, fun val hv => (hvs val hv).lower hd.floor_le⟩

theorem Lowered.lands_ofValue {val : ValueId} (h : Passable start floor draft val) :
    (Lowered.ofValue val).Lands start floor false draft :=
  ⟨h.toFit, fun _ ho => (nomatch ho), fun _ => h.plain, fun ht => (nomatch ht)⟩

variable {args : List ValueId}

section

variable (h : draft.InOrder start floor)
include h

theorem applyOperator_appends (kind : Operator) (info : ExprInfo) (ha : ∀ val ∈ args, Fit start floor draft val) :
    Appends start floor draft (applyOperator kind info args) (fun res later =>
      Made start floor draft later ⟨.operator kind res args, info.location⟩ res) :=
  make_appends h info.ty (.operator kind · args) info.location (fun _ => rfl) (fun _ => ha)
    (fun _ _ hv => (not_mem_nil hv).elim) (fun _ => draws_of_none rfl rfl) fun _ _ _ hm => hm

theorem operate_appends {kind : Operator} (hk : kind ≠ .indexRef) (info : ExprInfo) (ha : ∀ val ∈ args, Fit start floor draft val) :
    Appends start floor draft (applyOperator kind info args) (fun res later =>
      Passable start floor later res ∧ references later.code = references draft.code) := by
  refine (applyOperator_appends h kind info ha).imp fun res later hm => ?_
  have hp : Select.referenceResult? ⟨.operator kind res args, info.location⟩ = none := by
    cases kind <;> first | exact absurd rfl hk | rfl
  exact ⟨hm.passable hp, hm.references_eq hp⟩

theorem load_appends (info : ExprInfo) (hl : low.Lands start floor tgt draft) :
    Appends start floor draft (load info low) (fun val later => Passable start floor later val) := by
  unfold load
  split
  · exact (operate_appends h (by decide) info (forall_mem_singleton.mpr hl.value)).imp fun _ _ hrs => hrs.1
  · rename_i hr
    exact .pure h ⟨hl.value, hl.plain (by simpa using hr)⟩

end

theorem operands_assign (dst : ValueId) (src : AssignSource) (loc : Location) :
    (⟨.assign dst src, loc⟩ : Statement).operands = sourceValues src := by
  cases src <;> rfl

variable {src : AssignSource}

theorem Supplies.draws (h : Supplies start floor src draft) (dst : ValueId) (loc : Location) :
    Draws draft.literals ⟨.assign dst src, loc⟩ := by
  refine ⟨fun id hid => ?_, fun _ hn => (nomatch hn)⟩
  cases src with
  | literal found => exact mem_singleton.mp hid ▸ h.pooled found rfl
  | _ => exact (not_mem_nil hid).elim

section

variable (h : draft.InOrder start floor)
include h

theorem sourceOf_appends (val : Expr) {lower : LowerM Lowered} (hlw : Appends start floor draft lower (Lowered.Lands start floor tgt)) :
    Appends start floor draft (sourceOf val lower) (Supplies start floor) := by
  unfold sourceOf
  split
  · refine .bind (literal_appends h _ _) fun id _ _ h₁ ⟨literal, hl, _⟩ => .pure h₁ ⟨forall_mem_nil _, ?_⟩
    rintro _ ⟨⟩
    exact (List.getElem?_eq_some_iff.mp hl).1
  · exact .pure h ⟨forall_mem_nil _, fun _ heq => by cases heq⟩
  · exact .bind hlw fun _ _ _ h₁ hlr => .bind (load_appends h₁ _ hlr) fun _ _ _ h₂ hv =>
      .pure h₂ ⟨forall_mem_singleton.mpr hv.toFit, fun _ heq => by cases heq⟩

/-- An assignment to what may be assigned to. -/
theorem assign_appends {dst : ValueId} (loc : Location) (ht : draft.IsTarget start dst)
    (hlt : dst < draft.values.length) (hn : dst < start.declared ∨ floor ≤ dst)
    (hs : Supplies start floor src draft) :
    Appends start floor draft (emit (.assign dst src) loc) (fun _ later =>
      references later.code = references draft.code) := by
  have hf : Follows start.declared start.returnValue draft.code ⟨.assign dst src, loc⟩ := by
    refine ⟨fun _ hv => (nomatch hv), fun val hv => ?_, fun _ hv => (not_mem_nil hv).elim⟩
    cases hv
    exact ht
  have hvs : ∀ val ∈ (⟨.assign dst src, loc⟩ : Statement).values, val < draft.values.length ∧ (val < start.declared ∨ floor ≤ val) := by
    intro val hv
    rcases mem_values.mp hv with hsm | hmem
    · cases hsm
      exact ⟨hlt, hn⟩
    · have hfit := hs.fit val (operands_assign .. ▸ hmem)
      exact ⟨hfit.lt, hfit.near⟩
  refine (emit_appends h hf hvs (hs.draws _ _) fun _ _ _ _ heq => by cases heq).imp fun _ later hc => ?_
  rw [hc, references_append]
  exact append_nil _

theorem memberName_appends (key : Expr) : Appends start floor draft (memberName key) (fun name later => ∀ id ∈ name, ∃ literal text,
      later.literals[id]? = some literal ∧ literal.value = .string text) := by
  unfold memberName
  split
  · refine .bind (literal_appends h _ _) fun id _ _ h₁ ⟨literal, hl, hv⟩ => .pure h₁ ?_
    rintro _ ⟨⟩
    exact ⟨literal, _, hl, hv⟩
  · exact .bind (error_appends h _ _ _) fun _ _ _ h₁ _ => .pure h₁ fun _ hid => (nomatch hid)

theorem placeholder_appends (info : ExprInfo) (tgt : Bool) :
    Appends start floor draft (placeholder info) (Lowered.Lands start floor tgt) := by
  refine .bind (temporary_appends h _) fun val later _ hl ⟨hv, hc, _, hfit⟩ => .pure hl ?_
  have hnew : val ∉ mentions later.code := by
    rw [hc, hv]
    exact fun hmem => absurd (h.code.mentions_lt hmem) (lt_irrefl _)
  exact ⟨hfit, fun _ ho => (nomatch ho), fun _ hmem => hnew (references_subset_mentions _ hmem), fun _ => Or.inr (Or.inr hnew)⟩

end

theorem lowerVariable_appends {scope : Scope} (hsc : scope.Names start) (h : draft.InOrder start floor) (info : ExprInfo)
    (id : Source.VariableId) (tgt : Bool) :
    Appends start floor draft (lowerVariable scope info id) (Lowered.Lands start floor tgt) := by
  unfold lowerVariable
  split
  · rename_i val hv
    have hlt := hsc.bindings_lt id val hv
    refine .pure h ⟨⟨lt_of_lt_of_le hlt h.declared_le, hsc.bindings_ne id val hv, Or.inl hlt⟩,
      fun _ ho => (nomatch ho), fun _ hmem => ?_, fun _ => Or.inl hlt⟩
    exact absurd hlt (Nat.not_lt.mpr (h.code.sequenced.le_of_mem_references hmem))
  · exact .bind (error_appends h _ _ _) fun _ _ _ h₁ _ => placeholder_appends h₁ info tgt

section

variable (h : draft.InOrder start floor) (info : ExprInfo)
include h

theorem lowerConstant_appends (hs : Supplies start floor src draft) :
    Appends start floor draft (lowerConstant info src) (Lowered.Lands start floor false) :=
  make_appends h info.ty (.assign · src) info.location (fun _ => rfl)
    (fun _ val hv => hs.fit val (operands_assign .. ▸ hv)) (fun _ _ hv => (not_mem_nil hv).elim)
    (fun _ => hs.draws _ _) fun _ _ _ hm => Lowered.lands_ofValue (hm.passable rfl)

theorem lowerCount_appends (op : Source.StepOperator) (fixity : Source.Fixity) {tgt : ValueId} (ht : Fit start floor draft tgt) :
    Appends start floor draft (lowerCount info op fixity tgt) (Lowered.Lands start floor false) := by
  have hs : stepOperator op ≠ .indexRef := by cases op <;> decide
  cases fixity with
  | before =>
    exact .bind (operate_appends h hs info (forall_mem_singleton.mpr ht)) fun _ _ _ h₁ hv =>
      .pure h₁ (Lowered.lands_ofValue hv.1)
  | after =>
    refine .bind (operate_appends h (by decide) info (forall_mem_singleton.mpr ht)) fun previous _ ha₁ h₁ ⟨hpr, _⟩ =>
      .bind (operate_appends h₁ hs info (forall_mem_singleton.mpr (ht.mono ha₁)))
      fun _ _ ha₂ h₂ ⟨_, hsm⟩ => .pure h₂ (Lowered.lands_ofValue ⟨hpr.toFit.mono ha₂, ?_⟩)
    rw [hsm]
    exact hpr.plain

theorem lowerMember_appends (reference : Bool) {obj : ValueId} {name : LiteralId} (ho : Fit start floor draft obj)
    (hn : ∃ lit text, draft.literals[name]? = some lit ∧ lit.value = .string text) :
    Appends start floor draft (lowerMember info reference obj name) (Lowered.Lands start floor reference) := by
  have hlt : name < draft.literals.length := by
    obtain ⟨lit, -, hl, -⟩ := hn
    exact (List.getElem?_eq_some_iff.mp hl).1
  refine make_appends h info.ty (fun res => if reference then .memberRef res obj name else .member res obj name) info.location
    (fun _ => by cases reference <;> rfl) (fun _ val hv => ?_) (fun _ val hv => ?_) (fun _ => ?_)
    fun res later ha hm => ⟨hm.fit, ?_, fun hp => ?_, fun ht => ?_⟩
  · obtain rfl : val = obj := by cases reference <;> exact mem_singleton.mp hv
    exact ho
  · cases reference <;> exact (not_mem_nil hv).elim
  · cases reference <;> exact ⟨forall_mem_singleton.mpr hlt, fun _ hid => Option.some.inj hid ▸ hn⟩
  · rintro _ ⟨⟩
    exact ho.mono ha
  · subst hp
    exact (hm.passable rfl).plain
  · subst ht
    exact Or.inr (Or.inl (hm.mem_references_iff.mpr rfl))

theorem lowerBuiltin_appends (kind : Builtin) (tmpl : Option TypeId) (ty : TypeId) (ha : ∀ val ∈ args, Fit start floor draft val) :
    Appends start floor draft (lowerBuiltin info kind tmpl ty args) (Lowered.Lands start floor false) :=
  make_appends h ty (fun res => .builtin kind tmpl (some res) args) info.location (fun _ => rfl)
    (fun _ => ha) (fun _ _ hv => (not_mem_nil hv).elim) (fun _ => draws_of_none rfl rfl)
    fun _ _ _ hm => Lowered.lands_ofValue (hm.passable rfl)

end

theorem calleeOperands_appends (h : draft.InOrder start floor) (callee : Expr) (hl : low.Lands start floor tgt draft) :
    Appends start floor draft (calleeOperands callee low) (fun opds later => ∀ val ∈ opds, Fit start floor later val) := by
  unfold calleeOperands
  split
  · refine .pure h (forall_mem_cons.mpr ⟨hl.value, fun obj ho => ?_⟩)
    exact hl.object obj (Option.mem_toList.mp ho)
  · exact .bind (load_appends h _ hl) fun _ _ _ h₁ hv => .pure h₁ (forall_mem_singleton.mpr hv.toFit)

end

mutual

/-- Lowering an expression adds statements in sequence, which mention nothing but declared values and new ones. -/
theorem lowerExpr_appends {start : Start} {scope : Scope} (hsc : scope.Names start) :
    ∀ (expr : Expr) (reference : Bool) (draft : Draft), draft.InOrder start draft.values.length →
      Appends start draft.values.length draft (lowerExpr scope expr reference)
        (Lowered.Lands start draft.values.length (expr.isPlace && reference))
  | .literal info val, _, draft, h => by
    refine .bind (literal_appends h _ _) fun id _ _ h₁ ⟨literal, hlr, _⟩ =>
      lowerConstant_appends h₁ info ⟨forall_mem_nil _, ?_⟩
    rintro _ ⟨⟩
    exact (List.getElem?_eq_some_iff.mp hlr).1
  | .variableRef info id, reference, draft, h => lowerVariable_appends hsc h info id _
  | .functionRef info id, _, draft, h => lowerConstant_appends h info ⟨forall_mem_nil _, fun _ heq => by cases heq⟩
  | .unary info op opd, _, draft, h => by
    have hk : unaryOperator op ≠ .indexRef := by cases op <;> decide
    exact .bind (lowerExpr_appends hsc opd false draft h) fun _ _ _ h₁ hl =>
      .bind (load_appends h₁ _ hl) fun _ _ _ h₂ hv =>
      .bind (operate_appends h₂ hk _ (forall_mem_singleton.mpr hv.toFit)) fun _ _ _ h₃ hr =>
      .pure h₃ (Lowered.lands_ofValue hr.1)
  | .binary info op lhs rhs, _, draft, h => by
    have hk : (binaryOperator op).1 ≠ .indexRef := by cases op <;> decide
    refine .bind (lowerExpr_appends hsc lhs false draft h) fun _ d₁ _ h₁ hlhs =>
      .bind (load_appends h₁ _ hlhs) fun left d₂ _ h₂ hlf =>
      .bind ((lowerExpr_appends hsc rhs false d₂ h₂.restart).landsWithin h₂) fun _ d₃ ha₃ h₃ hrhs =>
      .bind (load_appends h₃ _ hrhs) fun right d₄ ha₄ h₄ hrg => ?_
    have hlf₄ := hlf.toFit.mono (ha₃.trans ha₄)
    have har : ∀ val ∈ if (binaryOperator op).2 then [right, left] else [left, right], Fit start draft.values.length d₄ val := by
      split <;> simp [hlf₄, hrg.toFit]
    exact .bind (operate_appends h₄ hk _ har) fun _ _ _ h₅ hr => .pure h₅ (Lowered.lands_ofValue hr.1)
  | .count info op fixity tgt, _, draft, h => by
    rw [lowerExpr]
    split
    · exact .bind (lowerExpr_appends hsc tgt true draft h) fun _ _ _ h₁ hl =>
        lowerCount_appends h₁ info op fixity hl.value
    · exact .bind (error_appends h _ _ _) fun _ _ _ h₁ _ => placeholder_appends h₁ info _
  | .assign info tgt val, _, draft, h => by
    rw [lowerExpr]
    split
    · rename_i hpl
      refine .bind (lowerExpr_appends hsc tgt true draft h) fun low d₁ _ h₁ hl => ?_
      -- The source mentions nothing that the place was computed with, so the place stays one to assign to.
      have hv : Appends start draft.values.length d₁ (sourceOf val (lowerExpr scope val false))
          (fun src later => d₁.Adds start d₁.values.length later ∧ Supplies start draft.values.length src later) :=
        (sourceOf_appends h₁.restart val (lowerExpr_appends hsc val false d₁ h₁.restart)).within h₁
          fun _ _ ha hs => ⟨ha, fun val hmem => (hs.fit val hmem).lower h₁.floor_le, hs.pooled⟩
      refine .bind hv fun src d₂ _ h₂ ⟨ha₂, hs⟩ => ?_
      have ht := (hl.isTarget (by simp [hpl])).mono hl.value.lt ha₂
      have hfit := hl.value.mono ha₂
      refine .bind (assign_appends h₂ info.location ht hfit.lt hfit.near hs) fun _ _ ha₃ h₃ hsm =>
        .pure h₃ ⟨hfit.mono ha₃, fun obj ho => ((hl.object obj ho).mono ha₂).mono ha₃, fun hp => ?_, fun ht => (nomatch ht)⟩
      rw [hsm]
      exact ha₂.not_mem_references h₂ hl.value.lt (hl.plain hp)
    · exact .bind (error_appends h _ _ _) fun _ _ _ h₁ _ => placeholder_appends h₁ info _
  | .call info callee args, reference, draft, h => by
    have hc := lowerExpr_appends hsc callee false draft h
    have har := lowerExprs_appends hsc args
    cases callee
    case functionRef id info' =>
      refine .bind (har draft h) fun vals d₁ _ h₁ hvs => ?_
      exact make_appends h₁ info.ty (.call · _ vals) info.location (fun _ => rfl)
        (fun _ val hv => (hvs val hv).toFit) (fun _ val hv => (hvs val hv).plain)
        (fun _ => draws_of_none rfl rfl) fun _ _ _ hm => Lowered.lands_ofValue (hm.passable rfl)
    all_goals
      rw [lowerExpr]
      · refine .bind hc fun _ _ _ h₁ hl =>
          .bind (calleeOperands_appends h₁ _ hl) fun opds d₂ _ h₂ hop =>
          .bind ((har d₂ h₂.restart).passableWithin h₂) fun vals d₃ ha₃ h₃ hvs =>
          .bind (operate_appends h₃ (by decide) _ ?_) fun _ _ _ h₄ hr => .pure h₄ (Lowered.lands_ofValue hr.1)
        exact forall_mem_append.mpr ⟨fun val hv => (hop val hv).mono ha₃, fun val hv => (hvs.2 val hv).toFit⟩
      · exact fun _ _ heq => nomatch heq
  | .index info obj position, reference, draft, h => by
    refine .bind (lowerExpr_appends hsc obj reference draft h) fun low d₁ _ h₁ hl =>
      .bind ((lowerExpr_appends hsc position false d₁ h₁.restart).landsWithin h₁) fun _ d₂ ha₂ h₂ hps =>
      .bind (load_appends h₂ _ hps) fun place d₃ ha₃ h₃ hpl => ?_
    have ho := hl.value.mono (ha₂.trans ha₃)
    have har : ∀ val ∈ [low.value, place], Fit start draft.values.length d₃ val := by
      simp [ho, hpl.toFit]
    refine .bind (applyOperator_appends h₃ _ _ har) fun res d₄ ha₄ h₄ hm =>
      .pure h₄ ⟨hm.fit, ?_, fun hp => ?_, fun ht => ?_⟩
    · rintro _ ⟨⟩
      exact ho.mono ha₄
    · obtain rfl : reference = false := hp
      exact (hm.passable rfl).plain
    · obtain rfl : reference = true := ht
      exact Or.inr (Or.inl (hm.mem_references_iff.mpr rfl))
  | .member info obj key, reference, draft, h => by
    refine .bind (memberName_appends h key) fun name d₁ _ h₁ hn => ?_
    cases name with
    | none => exact placeholder_appends h₁ info _
    | some name =>
      exact .bind ((lowerExpr_appends hsc obj reference d₁ h₁.restart).landsWithin h₁) fun _ _ ha₂ h₂ hl =>
        lowerMember_appends h₂ info reference hl.value (exists_string_mono ha₂.literals (hn name rfl))
  | .cast info val _, _, draft, h | .typeOf info val, _, draft, h =>
    .bind (lowerExpr_appends hsc val false draft h) fun _ _ _ h₁ hl =>
      .bind (load_appends h₁ _ hl) fun _ _ _ h₂ hv =>
      lowerBuiltin_appends h₂ info _ _ _ (forall_mem_singleton.mpr hv.toFit)
  | .make info tgt args, _, draft, h =>
    .bind (lowerExprs_appends hsc args draft h) fun _ _ _ h₁ hvs =>
      lowerBuiltin_appends h₁ info _ _ _ fun val hv => (hvs val hv).toFit
  | .print info args, _, draft, h => by
    refine .bind (lowerExprs_appends hsc args draft h) fun vals _ _ h₁ hvs =>
      .bind (emit_appends h₁ ⟨fun _ hv => (nomatch hv), fun _ hv => (nomatch hv),
        fun _ hv => (not_mem_nil hv).elim⟩ (fun val hv => ?_) (draws_of_none rfl rfl) ?_)
      fun _ _ _ h₂ _ => placeholder_appends h₂ info _
    · exact ⟨(hvs val hv).lt, (hvs val hv).near⟩
    · rintro _ _ _ _ ⟨⟩ hpr
      exact absurd rfl hpr

/-- Lowering expressions adds statements in sequence, and yields values that a call may pass. -/
theorem lowerExprs_appends {start : Start} {scope : Scope} (hsc : scope.Names start) :
    ∀ (exprs : List Expr) (draft : Draft), draft.InOrder start draft.values.length →
      Appends start draft.values.length draft (lowerExprs scope exprs) (fun vals later =>
        ∀ val ∈ vals, Passable start draft.values.length later val)
  | [], draft, h => .pure h fun _ hv => (nomatch hv)
  | expr :: rest, draft, h => by
    refine .bind (lowerExpr_appends hsc expr false draft h) fun _ _ _ h₁ hl =>
      .bind (load_appends h₁ _ hl) fun val d₂ _ h₂ hv => ?_
    exact .bind ((lowerExprs_appends hsc rest d₂ h₂.restart).passableWithin h₂) fun vals d₃ _ h₃ hvs =>
      .pure h₃ (forall_mem_cons.mpr ⟨hv.mono hvs.1 h₃, hvs.2⟩)

end

variable {scope : Scope} (hsc : scope.Names start) (h : draft.InOrder start draft.values.length) (expr : Expr)
include hsc h

theorem lowerValue_appends : Appends start draft.values.length draft (lowerValue scope expr)
      (fun val later => Passable start draft.values.length later val) :=
  .bind (lowerExpr_appends hsc expr false draft h) fun _ _ _ h₁ hl => load_appends h₁ _ hl

theorem lowerSource_appends : Appends start draft.values.length draft (lowerSource scope expr) (Supplies start draft.values.length) :=
  sourceOf_appends h expr (lowerExpr_appends hsc expr false draft h)

end TagAsm.Lower
