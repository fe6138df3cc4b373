import TagAsm.Proofs.Correspondence

/-!
# Names do not collide

Three kinds of labels are defined: names of code, which never start with a dot; labels within code, `.L`, the name of the code,
a dot and a role without dots; and names of strings, `.Lstr` and a number. Reducing names to what the assembler accepts loses
information, so a name of code is told from the others by a number, and it is taken from then on.
-/

namespace TagAsm.Asm

open List SymbolTable
open TagAsm.Flow (SubroutineId Subroutine)

/-! ## Numbers in names -/

theorem toString_nat_inj {a b : Nat} : toString a = toString b ↔ a = b := by
  constructor
  · intro h
    have hd := congrArg (fun text : String => Nat.ofDigitChars 10 text.toList 0) h
    simpa [Nat.toString_eq_ofList_toDigits, Nat.ofDigitChars_toDigits] using hd
  · rintro rfl
    rfl

theorem dot_not_mem_toString (num : Nat) : '.' ∉ (toString num).toList := by
  intro hmem
  rw [Nat.toString_eq_ofList_toDigits, String.toList_ofList] at hmem
  exact absurd (Nat.isDigit_of_mem_toDigits (by decide) (by decide) hmem) (by decide)

/-! ## Names of code -/

theorem toList_localLabel (sym role : String) : (localLabel sym role).toList = ['.', 'L'] ++ sym.toList ++ ['.'] ++ role.toList := by
  simp [localLabel]

/-- A name that can be the name of code: it does not start with a dot. -/
def IsGlobal (name : String) : Prop := ∃ first rest, name.toList = first :: rest ∧ first ≠ '.'

theorem IsGlobal.append {base : String} (h : IsGlobal base) (more : String) : IsGlobal (base ++ more) := by
  obtain ⟨first, rest, hn, hdot⟩ := h
  exact ⟨first, rest ++ more.toList, by simp [hn], hdot⟩

variable {name : String}

/-- Of a name that is not empty, something is left that can be the name of code. -/
theorem isGlobal_mangle (h : name ≠ "") : IsGlobal (mangle name) := by
  unfold mangle
  cases hn : name.toList with
  | nil => exact absurd (String.toList_inj.mp hn) h
  | cons first rest =>
    refine ⟨_, _, by rw [String.toList_ofList, map_cons], ?_⟩
    by_cases hk : (first.isAlphanum || decide (first = '_')) = true
    · rw [if_pos hk]
      rintro rfl
      exact absurd hk (by decide)
    · rw [if_neg hk]
      decide

theorem IsGlobal.candidate {base : String} (h : IsGlobal base) (suffix : Nat) : IsGlobal (candidate base suffix) := by
  cases suffix with
  | zero => exact h
  | succ suffix => exact (h.append ".").append _

theorem isGlobal_startSymbol : IsGlobal startSymbol := ⟨'_', "start".toList, by decide, by decide⟩

theorem IsGlobal.ne_localLabel (h : IsGlobal name) (sym role : String) : name ≠ localLabel sym role := by
  rintro rfl
  obtain ⟨first, rest, hn, hdot⟩ := h
  rw [toList_localLabel] at hn
  exact hdot (cons.inj hn).1.symm

theorem IsGlobal.ne_stringName (h : IsGlobal name) (id : Nat) : name ≠ stringName id := by
  rintro rfl
  obtain ⟨first, rest, hn, hdot⟩ := h
  rw [stringName, String.toList_append] at hn
  exact hdot (cons.inj hn).1.symm

/-! ## Labels within code, and names of strings -/

/-- A label within code tells the code and the role, though the name of the code may hold dots itself. -/
theorem localLabel_inj_of_dotless {sym symbol' role role' : String} (hrl : '.' ∉ role.toList) (hrl' : '.' ∉ role'.toList)
    (h : localLabel sym role = localLabel symbol' role') : sym = symbol' ∧ role = role' := by
  have hl := congrArg String.toList h
  rw [toList_localLabel, toList_localLabel] at hl
  simp only [append_assoc, cons_append, nil_append, cons.injEq, true_and] at hl
  -- what comes after the last dot is the role
  rcases append_eq_append_iff.mp hl with ⟨more, hs, hr⟩ | ⟨more, hs, hr⟩
  · cases more with
    | nil =>
      simp only [append_nil, nil_append, cons.injEq, true_and] at hs hr
      exact ⟨String.toList_inj.mp hs.symm, String.toList_inj.mp hr⟩
    | cons first more =>
      rw [cons_append, cons.injEq] at hr
      exact absurd (hr.2 ▸ by simp) hrl
  · cases more with
    | nil =>
      simp only [append_nil, nil_append, cons.injEq, true_and] at hs hr
      exact ⟨String.toList_inj.mp hs, String.toList_inj.mp hr.symm⟩
    | cons first more =>
      rw [cons_append, cons.injEq] at hr
      exact absurd (hr.2 ▸ by simp) hrl'

/-- The name of a string has one dot only. -/
theorem localLabel_ne_stringName (sym role : String) (id : Nat) : localLabel sym role ≠ stringName id := by
  intro h
  have hl := congrArg String.toList h
  rw [toList_localLabel, stringName, String.toList_append] at hl
  have ht : sym.toList ++ ['.'] ++ role.toList = "str".toList ++ (toString id).toList := by
    have hd := congrArg (drop 2) hl
    simpa using hd
  have hmem : '.' ∈ "str".toList ++ (toString id).toList := by
    rw [← ht]
    simp
  rcases mem_append.mp hmem with hmem | hmem
  · exact absurd hmem (by decide)
  · exact dot_not_mem_toString id hmem

theorem stringName_inj {id id' : Nat} : stringName id = stringName id' ↔ id = id' := by
  rw [stringName, stringName, String.append_right_inj, toString_nat_inj]

/-! ## Free names -/

theorem candidate_injective (base : String) : Function.Injective (candidate base) := by
  intro a b h
  have hl : ∀ suffix : Nat, base ≠ base ++ "." ++ toString (suffix + 1) := by
    intro suffix heq
    have hls := congrArg (fun text : String => text.toList.length) heq
    simp only [String.toList_append, length_append] at hls
    have hone : (".".toList).length = 1 := by decide
    omega
  cases a with
  | zero =>
    cases b with
    | zero => rfl
    | succ b => exact absurd h (hl b)
  | succ a =>
    cases b with
    | zero => exact absurd h.symm (hl a)
    | succ b =>
      rw [candidate, candidate, String.append_right_inj, toString_nat_inj] at h
      exact h

/-- Among one candidate more than there are names taken, one is free. -/
theorem exists_candidate_not_mem (taken : List String) (base : String) :
    ∃ name ∈ (range (taken.length + 1)).map (candidate base), name ∉ taken := by
  by_contra hall
  push Not at hall
  have hn : ((range (taken.length + 1)).map (candidate base)).Nodup := nodup_range.map (candidate_injective base)
  have hle := hn.length_le_of_subset hall
  rw [length_map, length_range] at hle
  omega

/-- A free name is one of the candidates, and not taken. -/
theorem freeName_spec (taken : List String) (base : String) :
    freeName taken base ∉ taken ∧ ∃ suffix, freeName taken base = candidate base suffix := by
  unfold freeName
  cases hf : ((range (taken.length + 1)).map (candidate base)).find? (· ∉ taken) with
  | none =>
    obtain ⟨name, hn, hfr⟩ := exists_candidate_not_mem taken base
    exact absurd (decide_eq_true hfr) (find?_eq_none.mp hf name hn)
  | some name =>
    obtain ⟨suffix, -, hs⟩ := mem_map.mp (mem_of_find?_eq_some hf)
    have hfr := find?_some hf
    exact ⟨of_decide_eq_true hfr, suffix, hs.symm⟩

/-! ## The names of subroutines -/

/-- The subroutine with this number goes by a name that is not a native one. -/
def OwnName (subroutines : List Subroutine) (names : Table String) (id : SubroutineId) (name : String) : Prop :=
  names[id]? = some name ∧ ∃ sub, subroutines[id]? = some sub ∧ SymbolTable.nativeName? sub = none

/-- Subroutines with their names: one for each, in order. A name that is not a native one is a candidate for the name that the
subroutine would like to have; it is taken, it is not reserved, and no two subroutines share it. -/
structure Named (prog : Flow.Program) (reserved : List String) (subroutines : List Subroutine)
    (names : Table String × List String) : Prop where
  length_eq : names.1.length = subroutines.length
  reserved_subset : startSymbol :: reserved ⊆ names.2
  taken : ∀ id name, OwnName subroutines names.1 id name → name ∈ names.2 ∧ name ∉ startSymbol :: reserved
  wanted : ∀ (id : SubroutineId) sub name, subroutines[id]? = some sub → OwnName subroutines names.1 id name →
    ∃ base suffix, SymbolTable.baseName prog sub = .ok base ∧ name = candidate base suffix
  distinct : ∀ id id' name, OwnName subroutines names.1 id name → OwnName subroutines names.1 id' name → id = id'

/-- What stands in a list to which one element was added. -/
theorem getElem?_append_singleton {α : Type} {rows : List α} {row found : α} {id : Nat} (h : (rows ++ [row])[id]? = some found) :
    rows[id]? = some found ∧ id < rows.length ∨ id = rows.length ∧ found = row := by
  rcases Nat.lt_or_ge id rows.length with hlt | hge
  · rw [getElem?_append_left hlt] at h
    exact Or.inl ⟨h, hlt⟩
  · rw [getElem?_append_right hge] at h
    obtain ⟨hlt, hf⟩ := List.getElem?_eq_some_iff.mp h
    simp only [length_singleton, Nat.lt_one_iff] at hlt
    refine Or.inr ⟨by omega, ?_⟩
    simpa [hlt] using hf.symm

variable {done : List Subroutine} {sub : Subroutine}

/-- Once one more subroutine is named, a name is an old one or the new one. -/
theorem OwnName.cases {table : Table String} {found : String} {id : SubroutineId} (hl : table.length = done.length)
    (h : OwnName (done ++ [sub]) (table ++ [name]) id found) :
    OwnName done table id found ∨ id = done.length ∧ found = name ∧ nativeName? sub = none := by
  obtain ⟨hf, other, ho, hn⟩ := h
  rcases getElem?_append_singleton hf with ⟨hf, hlt⟩ | ⟨hid, rfl⟩
  · rcases getElem?_append_singleton ho with ⟨ho, -⟩ | ⟨hid, -⟩
    · exact Or.inl ⟨hf, other, ho, hn⟩
    · omega
  · rcases getElem?_append_singleton ho with ⟨-, hlt⟩ | ⟨hid', rfl⟩
    · omega
    · exact Or.inr ⟨hid', rfl, hn⟩

variable {prog : Flow.Program} {reserved : List String}

/-- Naming one more subroutine keeps all names apart. -/
theorem Named.step {names next : Table String × List String} (h : Named prog reserved done names)
    (hs : nameSubroutine prog names sub = .ok next) :
    Named prog reserved (done ++ [sub]) next := by
  obtain ⟨table, taken⟩ := names
  have hl : table.length = done.length := h.length_eq
  -- what an old name was made for is still the same subroutine
  have hsm : ∀ (id : SubroutineId) other found, (done ++ [sub])[id]? = some other → OwnName done table id found →
      done[id]? = some other := by
    intro id other found hid hown
    obtain ⟨-, before, hbf, -⟩ := hown
    have hlt := (List.getElem?_eq_some_iff.mp hbf).1
    rwa [getElem?_append_left hlt] at hid
  unfold nameSubroutine at hs
  cases hn : nativeName? sub with
  | some name =>
    rw [hn] at hs
    cases hs
    have hold : ∀ id found, OwnName (done ++ [sub]) (table ++ [name]) id found → OwnName done table id found := by
      intro id found hown
      rcases hown.cases hl with hown | ⟨-, -, hno⟩
      · exact hown
      · rw [hn] at hno
        cases hno
    refine ⟨by simp [hl], h.reserved_subset, ?_, ?_, ?_⟩
    · exact fun id found hown => h.taken id found (hold id found hown)
    · exact fun id other found hid hown => h.wanted id other found (hsm id other found hid (hold id found hown)) (hold id found hown)
    · exact fun id id' found hown hown' => h.distinct id id' found (hold id found hown) (hold id' found hown')
  | none =>
    rw [hn] at hs
    obtain ⟨base, hb, hrs⟩ := of_bind_eq_ok hs
    cases hrs
    obtain ⟨hf, suffix, hsf⟩ := freeName_spec taken base
    refine ⟨by simp [hl], fun name hnm => mem_cons_of_mem _ (h.reserved_subset hnm), ?_, ?_, ?_⟩
    · intro id found hown
      rcases hown.cases hl with hown | ⟨-, rfl, -⟩
      · obtain ⟨ht, hr⟩ := h.taken id found hown
        exact ⟨mem_cons_of_mem _ ht, hr⟩
      · exact ⟨mem_cons_self, fun hr => hf (h.reserved_subset hr)⟩
    · intro id other found hid hown
      rcases hown.cases hl with hown | ⟨rfl, rfl, -⟩
      · exact h.wanted id other found (hsm id other found hid hown) hown
      · rcases getElem?_append_singleton hid with ⟨-, hlt⟩ | ⟨-, rfl⟩
        · omega
        · exact ⟨base, suffix, hb, hsf⟩
    · -- an old name is taken and the new one was not, so they differ
      intro id id' found hown hown'
      rcases hown.cases hl with hown | ⟨hid, rfl, -⟩
      · rcases hown'.cases hl with hown' | ⟨-, rfl, -⟩
        · exact h.distinct id id' found hown hown'
        · exact absurd (h.taken id _ hown).1 hf
      · rcases hown'.cases hl with hown' | ⟨hid', -, -⟩
        · exact absurd (h.taken id' _ hown').1 hf
        · rw [hid, hid']

/-- The subroutines of a program are named as they should be. -/
theorem named_ofProgram {table : SymbolTable} (h : ofProgram prog reserved = .ok table) :
    Named prog reserved prog.subroutines (table.subroutines, table.taken) ∧
      table.strings = [] ∧ table.initializers = [] ∧ table.methods = [] := by
  obtain ⟨⟨subroutines, taken⟩, hl, hr⟩ := of_bind_eq_ok h
  cases hr
  have he : Named prog reserved [] ([], startSymbol :: reserved) := by
    have hno : ∀ id name, ¬OwnName [] [] id name := by
      intro id name hown
      simpa using hown.1
    exact ⟨rfl, fun _ h => h, fun id name hown => absurd hown (hno id name), fun id _ name _ hown => absurd hown (hno id name),
      fun id _ name hown _ => absurd hown (hno id name)⟩
  have hn := foldlM_reaches (Named prog reserved) (fun _ _ _ _ hn hs => hn.step hs) prog.subroutines he hl
  exact ⟨hn, rfl, rfl, rfl⟩

/-! ## Names that are not empty -/

/-- If classes have names, all types have. -/
theorem typeName_ne_empty {table : TypeTable} {className : ClassId → Except Fault String}
    (hc : ∀ id name, className id = .ok name → name ≠ "") {id : TypeId} (h : table.name className id = .ok name) :
    name ≠ "" := by
  obtain ⟨kind, -, h⟩ := of_bind_eq_ok h
  cases kind with
  | void | dynamic =>
    cases h
    decide
  | primitive kind =>
    cases h
    cases kind <;> decide
  | array element =>
    obtain ⟨inner, -, h⟩ := of_bind_eq_ok h
    cases h
    simp
  | function params ret =>
    obtain ⟨names, -, h⟩ := of_bind_eq_ok h
    obtain ⟨last, -, h⟩ := of_bind_eq_ok h
    cases h
    simp
  | classType classId args =>
    obtain ⟨first, hf, h⟩ := of_bind_eq_ok h
    have hne := hc classId first hf
    split at h
    · cases h
      exact hne
    · obtain ⟨names, -, h⟩ := of_bind_eq_ok h
      cases h
      simp

end TagAsm.Asm
