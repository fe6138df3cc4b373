import TagAsm.NameTable
import TagAsm.Proofs.Interning

/-!
# A table of names with many callers

Any number of callers use one table. Whoever inserts a name looks it up first and adds it later, and in between others may insert the same
name or another one. Whatever the order (`Runs`), as long as 32 bits are enough for the numbers, the table holds each name once, and a
number names the same name ever after.
-/

namespace TagAsm.NameTable

open List

/-- What a caller gets to know. -/
inductive Event where
  | inserted (name : String) (num : Nat)
  | found (name : String) (answer : Option Nat)
  | got (num : Nat) (answer : Option String)

/-- The table, and the names that callers have looked up in vain and are about to add. -/
structure Shared where
  table : NameTable
  pending : List String

/-- What can happen next. A call that inserts a name ends at once if it finds the name, and otherwise once it has added it. -/
inductive Step : Shared → List Event → Shared → Prop where
  | hit {table : NameTable} {pending : List String} {name : String} {num : Nat} (h : table.indexOf? name = some num) :
    Step ⟨table, pending⟩ [.inserted name num] ⟨table, pending⟩
  | miss {table : NameTable} {pending : List String} {name : String} (h : table.indexOf? name = none) :
    Step ⟨table, pending⟩ [] ⟨table, name :: pending⟩
  | add (table : NameTable) (before : List String) (name : String) (after : List String) :
    Step ⟨table, before ++ name :: after⟩ [.inserted name (table.addIfAbsent name).1] ⟨(table.addIfAbsent name).2, before ++ after⟩
  | look (shared : Shared) (name : String) : Step shared [.found name (shared.table.indexOf? name)] shared
  | get (shared : Shared) (num : Nat) : Step shared [.got num (shared.table.get? num)] shared

/-- What happens step by step. -/
inductive Runs (start : Shared) : List Event → Shared → Prop where
  | refl : Runs start [] start
  | step {events seen : List Event} {shared next : Shared} (h : Runs start events shared) (hstep : Step shared seen next) :
    Runs start (events ++ seen) next

/-- A call that nobody interrupts does what `insert` does. -/
theorem runs_insert (table : NameTable) (pending : List String) (name : String) :
    Runs ⟨table, pending⟩ [.inserted name (table.insert name).1] ⟨(table.insert name).2, pending⟩ := by
  unfold insert
  split
  · rename_i num hf
    exact .step .refl (.hit hf)
  · rename_i hm
    exact .step (.step .refl (.miss hm)) (.add table [] name pending)

/-- What a caller is told as it is in the table now. -/
def Event.Exact (table : NameTable) : Event → Prop
  | .inserted name num => table.get? num = some name
  | .found name answer => answer = table.indexOf? name
  | .got num answer => answer = table.get? num

/-- What a number names. Once a caller is told, it stays. -/
def Event.Holds (table : NameTable) : Event → Prop
  | .inserted name num | .found name (some num) | .got num (some name) => table.get? num = some name
  | _ => True

/-- What a caller is told later fits what was told when a name was inserted. -/
def Event.Fits : Event → Event → Prop
  | .inserted name num, .inserted other otherNumber => num = otherNumber ↔ name = other
  | .inserted name num, .found asked answer => asked = name → answer = some num
  | .inserted name num, .got asked answer => asked = num → answer = some name
  | _, _ => True

/-- The table holds each name once, all that callers were told holds of it, and what they were told fits together. -/
structure Consistent (table : NameTable) (events : List Event) : Prop where
  nodup : table.names.Nodup
  holds : ∀ event ∈ events, event.Holds table
  fits : events.Pairwise Event.Fits

section

variable {table later : NameTable} {name : String} {num : Nat}

theorem get?_of_indexOf? (hs : table.names.length < UInt32.size) (h : table.indexOf? name = some num) : table.get? num = some name := by
  obtain ⟨place, hp, rfl⟩ := Option.map_eq_some_iff.mp h
  have hf := (Table.firstAt_of_findIdx? hp).1
  have hlt := (List.getElem?_eq_some_iff.mp hf).1
  rw [get?, Nat.mod_eq_of_lt (Nat.lt_trans hlt hs), hf]

/-- In a table that holds each name once, a name has one number. -/
theorem number_unique (hn : table.names.Nodup) {other : Nat} (h : table.get? num = some name)
    (ho : table.get? other = some name) : num = other :=
  (getElem?_inj (List.getElem?_eq_some_iff.mp h).1 hn).mp (h.trans ho.symm)

theorem indexOf?_of_get? (hn : table.names.Nodup) (hs : table.names.length < UInt32.size)
    (h : table.get? num = some name) : table.indexOf? name = some num := by
  cases hf : table.indexOf? name with
  | none => exact absurd (mem_of_getElem? h) (Table.not_mem_of_findIdx? (Option.map_eq_none_iff.mp hf))
  | some other => rw [number_unique hn h (get?_of_indexOf? hs hf)]

/-- A name that is added is there already, or else gets the number of a new row. -/
theorem addIfAbsent_cases (table : NameTable) (name : String) :
    (∃ num, table.indexOf? name = some num ∧ table.addIfAbsent name = (num, table)) ∨
      (name ∉ table.names ∧ table.addIfAbsent name = (table.names.length % UInt32.size, ⟨table.names ++ [name]⟩)) := by
  unfold addIfAbsent
  split
  · rename_i num hf
    exact .inl ⟨num, hf, rfl⟩
  · rename_i hm
    exact .inr ⟨Table.not_mem_of_findIdx? (Option.map_eq_none_iff.mp hm), rfl⟩

variable {event earlier : Event}

theorem Event.Exact.holds (hs : table.names.length < UInt32.size) (h : event.Exact table) : event.Holds table := by
  cases event with
  | inserted name num => exact h
  | found name answer =>
    cases answer with
    | none => trivial
    | some num => exact get?_of_indexOf? hs h.symm
  | got num answer =>
    cases answer with
    | none => trivial
    | some name => exact h.symm

/-- What holds of a table holds after names were added. -/
theorem Event.Holds.mono (h : event.Holds table) (hns : table.names <+: later.names) : event.Holds later := by
  have hget : ∀ {name num}, table.get? num = some name → later.get? num = some name := by
    intro name num hn
    obtain ⟨added, ha⟩ := hns
    rw [get?, ← ha, getElem?_append_left (List.getElem?_eq_some_iff.mp hn).1]
    exact hn
  unfold Holds at h ⊢
  split at h
  · exact hget h
  · exact hget h
  · exact hget h
  · trivial

theorem Event.Exact.fits (hn : table.names.Nodup) (hs : table.names.length < UInt32.size) (h : event.Exact table)
    (he : earlier.Holds table) : earlier.Fits event := by
  cases earlier with
  | found | got => trivial
  | inserted name num =>
    cases event with
    | inserted other otherNumber =>
      constructor
      · rintro rfl
        exact Option.some.inj (he.symm.trans h)
      · rintro rfl
        exact number_unique hn he h
    | found asked answer =>
      rintro rfl
      exact h.trans (indexOf?_of_get? hn hs he)
    | got asked answer =>
      rintro rfl
      exact h.trans he

variable {seen : List Event} {shared next : Shared}

/-- Names are only ever added at the end, and no name that is there. -/
theorem Step.names (h : Step shared seen next) :
    shared.table.names <+: next.table.names ∧ (shared.table.names.Nodup → next.table.names.Nodup) := by
  cases h with
  | add table before name after =>
    rcases table.addIfAbsent_cases name with ⟨num, -, heq⟩ | ⟨ha, heq⟩
    · rw [heq]
      exact ⟨prefix_rfl, id⟩
    · rw [heq]
      exact ⟨prefix_append _ _, fun hn => nodup_append.mpr ⟨hn, by simp, by grind⟩⟩
  | hit | miss | look | get => exact ⟨prefix_rfl, id⟩

/-- What a caller is told in a step is so afterwards. -/
theorem Step.exact (h : Step shared seen next) (hs : next.table.names.length < UInt32.size) : ∀ event ∈ seen, event.Exact next.table := by
  cases h with
  | hit h => exact forall_mem_singleton.mpr (get?_of_indexOf? hs h)
  | miss => exact forall_mem_nil _
  | look | get => exact forall_mem_singleton.mpr rfl
  | add table before name after =>
    refine forall_mem_singleton.mpr ?_
    rcases table.addIfAbsent_cases name with ⟨num, hf, heq⟩ | ⟨-, heq⟩
    · rw [heq] at hs ⊢
      exact get?_of_indexOf? hs hf
    · rw [heq] at hs ⊢
      have hlt : table.names.length < UInt32.size := Nat.lt_of_le_of_lt (prefix_append _ [name]).length_le hs
      show (table.names ++ [name])[table.names.length % UInt32.size]? = some name
      rw [Nat.mod_eq_of_lt hlt, getElem?_concat_length]

end

/-- Whatever callers do, and in whatever order: no name is in the table twice, what a caller got to know of a number stays true, every call
that inserts a name gets a number of that name, and two such calls get the same number exactly if their names are the same. -/
theorem consistent_of_runs {events : List Event} {shared : Shared} (h : Runs ⟨empty, []⟩ events shared)
    (hsize : shared.table.names.length < UInt32.size) : Consistent shared.table events := by
  induction h with
  | refl => exact ⟨nodup_nil, forall_mem_nil _, .nil⟩
  | @step events seen shared next _ hstep ih =>
    obtain ⟨hnames, hdistinct⟩ := hstep.names
    obtain ⟨hnodup, hholds, hfits⟩ := ih (Nat.lt_of_le_of_lt hnames.length_le hsize)
    have hkept : ∀ event ∈ events, event.Holds next.table := fun event hevent => (hholds event hevent).mono hnames
    have hexact := hstep.exact hsize
    refine ⟨hdistinct hnodup, forall_mem_append.mpr ⟨hkept, fun event hevent => (hexact event hevent).holds hsize⟩,
      pairwise_append.mpr ⟨hfits, ?_, fun event hevent other hother =>
        (hexact other hother).fits (hdistinct hnodup) hsize (hkept event hevent)⟩⟩
    cases hstep with
    | miss => exact .nil
    | hit | add | look | get => exact pairwise_singleton _ _

/-- Two callers look for a name in vain, and a third one for another name. Only then each of them adds what it looked for. -/
theorem consistent_of_runs_rivals : ∃ table, Runs ⟨empty, []⟩ [.inserted "y" 0, .inserted "x" 1, .inserted "x" 1, .got 1 (some "x")]
    ⟨table, []⟩ ∧ Consistent table [.inserted "y" 0, .inserted "x" 1, .inserted "x" 1, .got 1 (some "x")] := by
  have hx : Step ⟨empty, []⟩ [] ⟨empty, ["x"]⟩ := .miss rfl
  have hy : Step ⟨empty, ["x"]⟩ [] ⟨empty, ["y", "x"]⟩ := .miss rfl
  have hagain : Step ⟨empty, ["y", "x"]⟩ [] ⟨empty, ["x", "y", "x"]⟩ := .miss rfl
  have hruns := (((Runs.refl.step hx).step hy).step hagain).step (.add empty ["x"] "y" ["x"])
  have hruns := ((hruns.step (.add ⟨["y"]⟩ [] "x" ["x"])).step (.add ⟨["y", "x"]⟩ [] "x" [])).step (.get _ 1)
  exact ⟨⟨["y", "x"]⟩, hruns, consistent_of_runs hruns (by decide)⟩

end TagAsm.NameTable
