import TagAsm.Types

/-!
# Interning types

A table of types answers the same way whether or not it remembers its answers. An `Interner` is a table with a memory: it looks into the
memory first, goes through the rows only if the type is not there, and remembers what it answers. The memory is empty in the beginning,
also where the table is read from a document and may hold a type twice. What it remembers of a type is always the first row that equals
the type, so every answer is the one that the table alone gives (`TypeTable.intern`).
-/

namespace TagAsm

open List

namespace Table

variable {α : Type} [DecidableEq α] {rows : Table α} {row : α} {id : Nat}

/-- The first row that equals this one is the row with this id. -/
def FirstAt (rows : Table α) (row : α) (id : Nat) : Prop := rows[id]? = some row ∧ ∀ earlier < id, rows[earlier]? ≠ some row

omit [DecidableEq α] in
theorem FirstAt.unique {other : Nat} (h : rows.FirstAt row id) (ho : rows.FirstAt row other) : id = other := by
  rcases Nat.lt_trichotomy id other with hlt | heq | hgt
  · exact absurd h.1 (ho.2 id hlt)
  · exact heq
  · exact absurd ho.1 (h.2 other hgt)

omit [DecidableEq α] in
/-- Rows that are added later do not matter. -/
theorem FirstAt.append (h : rows.FirstAt row id) (added : List α) : FirstAt (rows ++ added) row id := by
  have hid := (List.getElem?_eq_some_iff.mp h.1).1
  refine ⟨by rw [getElem?_append_left hid, h.1], fun earlier he => ?_⟩
  rw [getElem?_append_left (Nat.lt_trans he hid)]
  exact h.2 earlier he

omit [DecidableEq α] in
/-- A row that no other row equals becomes the first of its kind at the end. -/
theorem firstAt_length (h : row ∉ rows) : FirstAt (rows ++ [row]) row rows.length := by
  refine ⟨by simp, fun earlier he heq => h ?_⟩
  rw [getElem?_append_left he] at heq
  exact mem_of_getElem? heq

/-- A search from the front finds the first row. -/
theorem firstAt_of_findIdx? (h : rows.findIdx? (· = row) = some id) : rows.FirstAt row id := by
  obtain ⟨hlt, hf, hb⟩ := findIdx?_eq_some_iff_getElem.mp h
  refine ⟨by rw [getElem?_eq_getElem hlt, of_decide_eq_true hf], fun earlier he heq => ?_⟩
  rw [getElem?_eq_getElem (Nat.lt_trans he hlt)] at heq
  exact hb earlier he (decide_eq_true (Option.some.inj heq))

theorem not_mem_of_findIdx? (h : rows.findIdx? (· = row) = none) : row ∉ rows :=
  fun hmem => of_decide_eq_false (findIdx?_eq_none_iff.mp h row hmem) rfl

end Table

namespace TypeTable

variable {table : TypeTable} {kind : TypeKind} {id : TypeId}

/-- A type is found where it first stands, or else it becomes the last row. -/
theorem intern_cases (table : TypeTable) (kind : TypeKind) :
    (table.types.FirstAt kind (table.intern kind).1 ∧ (table.intern kind).2 = table) ∨
      (kind ∉ table.types ∧ table.intern kind = (table.types.length, ⟨table.types ++ [kind]⟩)) := by
  unfold intern
  split
  · rename_i id hid
    exact .inl ⟨Table.firstAt_of_findIdx? hid, rfl⟩
  · rename_i hn
    exact .inr ⟨Table.not_mem_of_findIdx? hn, rfl⟩

/-- The answer is the first row that equals the type. -/
theorem firstAt_intern (table : TypeTable) (kind : TypeKind) : (table.intern kind).2.types.FirstAt kind (table.intern kind).1 := by
  rcases table.intern_cases kind with ⟨hf, hs⟩ | ⟨ha, hnew⟩
  · rwa [hs]
  · rw [hnew]
    exact Table.firstAt_length ha

/-- Only a type that is missing is added, at the end. -/
theorem types_intern (table : TypeTable) (kind : TypeKind) :
    (table.intern kind).2.types = table.types ++ if kind ∈ table.types then [] else [kind] := by
  rcases table.intern_cases kind with ⟨hf, hs⟩ | ⟨ha, hnew⟩
  · rw [hs, if_pos (mem_of_getElem? hf.1), append_nil]
  · rw [hnew, if_neg ha]

/-- Where the first row is known, the answer is, and no row is added. -/
theorem intern_of_firstAt (h : table.types.FirstAt kind id) : table.intern kind = (id, table) := by
  rcases table.intern_cases kind with ⟨hf, hs⟩ | ⟨ha, -⟩
  · exact Prod.ext (hf.unique h) hs
  · exact absurd (mem_of_getElem? h.1) ha

end TypeTable

/-- What a table is asked for: a type, or a primitive type. -/
inductive TypeRequest where
  | type (kind : TypeKind)
  | primitive (kind : Primitive)

/-- The type that is asked for. -/
def TypeRequest.kind : TypeRequest → TypeKind
  | .type kind => kind
  | .primitive kind => .primitive kind

/-- A table that remembers what it answered. -/
structure Interner where
  table : TypeTable
  answers : List (TypeKind × TypeId)

namespace Interner

/-- A table that was asked for nothing yet. -/
def ofTable (table : TypeTable) : Interner := ⟨table, []⟩

/-- The id of a type: the one that is remembered, or else that of the first row that equals the type, or else that of a new row. -/
def intern (interner : Interner) (kind : TypeKind) : TypeId × Interner :=
  match interner.answers.lookup kind with
  | some id => (id, interner)
  | none =>
    let (id, table) := interner.table.intern kind
    (id, ⟨table, (kind, id) :: interner.answers⟩)

/-- The answer to a request. -/
def answer (interner : Interner) (request : TypeRequest) : TypeId × Interner := interner.intern request.kind

/-- What becomes of the table as it answers requests. -/
def after (interner : Interner) (requests : List TypeRequest) : Interner :=
  requests.foldl (fun interner request => (interner.answer request).2) interner

/-- All that is remembered are first rows. -/
def Sound (interner : Interner) : Prop :=
  ∀ kind id, interner.answers.lookup kind = some id → interner.table.types.FirstAt kind id

theorem sound_ofTable (table : TypeTable) : (ofTable table).Sound := fun _ _ h => by cases h

section

variable {interner : Interner} (h : interner.Sound)
include h

/-- With and without a memory, the answer and the rows are the same. -/
theorem Sound.answer_eq (request : TypeRequest) :
    ((interner.answer request).1, (interner.answer request).2.table) = interner.table.intern request.kind := by
  unfold answer intern
  split
  · rename_i id hid
    exact (TypeTable.intern_of_firstAt (h _ id hid)).symm
  · rfl

/-- An answer leaves the memory sound: what was the first row still is, and what is remembered anew is. -/
theorem Sound.answer (request : TypeRequest) : (interner.answer request).2.Sound := by
  unfold Interner.answer Interner.intern
  split
  · exact h
  · intro kind id hid
    rw [lookup_cons] at hid
    split at hid
    · rename_i hk
      cases hid
      rw [eq_of_beq hk]
      exact interner.table.firstAt_intern request.kind
    · show (interner.table.intern request.kind).2.types.FirstAt kind id
      rw [TypeTable.types_intern]
      exact (h kind id hid).append _

theorem Sound.after (requests : List TypeRequest) : (interner.after requests).Sound := by
  induction requests generalizing interner with
  | nil => exact h
  | cons request requests ih => exact ih (h.answer request)

theorem Sound.fst_answer (request : TypeRequest) : (interner.answer request).1 = (interner.table.intern request.kind).1 :=
  congrArg Prod.fst (h.answer_eq request)

theorem Sound.table_answer (request : TypeRequest) : (interner.answer request).2.table = (interner.table.intern request.kind).2 :=
  congrArg Prod.snd (h.answer_eq request)

/-- As requests are answered, rows are added, each of them once and none that was there. -/
theorem Sound.types_after (requests : List TypeRequest) :
    ∃ added, (interner.after requests).table.types = interner.table.types ++ added ∧ added.Nodup ∧
      ∀ kind ∈ added, kind ∉ interner.table.types := by
  induction requests generalizing interner with
  | nil => exact ⟨[], (append_nil _).symm, nodup_nil, forall_mem_nil _⟩
  | cons request requests ih =>
    obtain ⟨added, ht, hn, hnew⟩ := ih (h.answer request)
    rw [h.table_answer, TypeTable.types_intern] at ht hnew
    refine ⟨_, by rw [← append_assoc]; exact ht, ?_, ?_⟩
    · split
      · exact hn
      · rename_i ha
        refine nodup_cons.mpr ⟨fun hmem => hnew _ hmem ?_, hn⟩
        simp [ha]
    · intro kind hk hmem
      rcases mem_append.mp hk with hk | hk
      · split at hk
        · cases hk
        · rename_i ha
          exact ha (mem_singleton.mp hk ▸ hmem)
      · exact hnew kind hk (mem_append_left _ hmem)

end

/-- What is said of a table that began as `start` and answered requests ever since. -/
structure Canonical (start : TypeTable) (interner : Interner) : Prop where
  /-- The first rows are the old ones. No row that was added equals another one, old or new. -/
  rows : ∃ added, interner.table.types = start.types ++ added ∧ added.Nodup ∧ ∀ kind ∈ added, kind ∉ start.types
  /-- The table alone would give the same answer and have the same rows after it. -/
  memoryless : ∀ request, ((interner.answer request).1, (interner.answer request).2.table) = interner.table.intern request.kind
  /-- The answer is the least id whose row is the type. -/
  least : ∀ request, (interner.answer request).2.table.types.FirstAt request.kind (interner.answer request).1
  /-- A row is added, at the end, exactly if no row is the type. -/
  grows : ∀ request, (interner.answer request).2.table.types =
    interner.table.types ++ if request.kind ∈ interner.table.types then [] else [request.kind]
  /-- Whatever is asked for next, the rows and their ids stay. -/
  keeps : ∀ more, interner.table.types <+: (interner.after more).table.types
  /-- Whatever is asked for in between, the same request has the same answer, and adds no row. -/
  again : ∀ request more, (((interner.answer request).2.after more).answer request).1 = (interner.answer request).1 ∧
    (((interner.answer request).2.after more).answer request).2.table = ((interner.answer request).2.after more).table

/-- Whatever table one begins with and whatever it is asked for, types keep their ids, and each has but one. -/
theorem canonical_after (start : TypeTable) (requests : List TypeRequest) : Canonical start ((ofTable start).after requests) := by
  have hsound := (sound_ofTable start).after requests
  refine ⟨(sound_ofTable start).types_after requests, hsound.answer_eq, fun request => ?_, fun request => ?_, fun more => ?_,
    fun request more => ?_⟩
  · rw [hsound.table_answer, hsound.fst_answer]
    exact TypeTable.firstAt_intern _ _
  · rw [hsound.table_answer, TypeTable.types_intern]
  · obtain ⟨added, htypes, -⟩ := hsound.types_after more
    exact htypes ▸ prefix_append _ _
  · -- the row that was found stays the first one, so it is found again
    have hasked := hsound.answer request
    obtain ⟨later, hlater, -⟩ := hasked.types_after more
    have hfirst := (TypeTable.firstAt_intern ((ofTable start).after requests).table request.kind).append later
    rw [← hsound.table_answer, ← hsound.fst_answer, ← hlater] at hfirst
    have hagain := (hasked.after more).answer_eq request
    rw [TypeTable.intern_of_firstAt hfirst] at hagain
    exact Prod.mk.inj hagain

end Interner

end TagAsm
