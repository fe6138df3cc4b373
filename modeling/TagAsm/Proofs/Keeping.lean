import Mathlib.Logic.Relation
import TagAsm.Proofs.Naming

/-!
# What selection keeps

Beside the code, selection notes five things: a symbol that is defined elsewhere, a string, an error, a method that is referred
to for the first time, and an initializer that is asked for for the first time. The last two are put into the queue as they are
noted. Everything else that is said of what selection keeps follows from what one such note does.
-/

namespace TagAsm.Select

open Asm Abi List
open TagAsm.Flow (SubroutineId Subroutine)

/-- One note more. -/
inductive Note (cx : Context) (kept : Selection) : Selection → Prop where
  | elsewhere (name : String) : Note cx kept { kept with externs := insertNew kept.externs name }
  | string (contents : String) : Note cx kept { kept with symbols := (kept.symbols.string contents).2 }
  | error {kind : DiagnosticKind} (location : Location) (message : String) (hkind : kind ≠ .missingSymbol) :
    Note cx kept { kept with diagnostics := kept.diagnostics ++ [.error .codegen kind location message] }
  | method {id : SubroutineId} {sub : Subroutine} (hid : cx.program.subroutines[id]? = some sub)
    (hbody : sub.body?.isSome = true) (howner : sub.owner.isSome = true) (hnew : id ∉ kept.symbols.methods) :
    Note cx kept
      { kept with
        symbols := { kept.symbols with methods := kept.symbols.methods ++ [id] }
        queue := kept.queue ++ [.subroutine id] }
  | initializer {ty : TypeId} {typeName name : String} (hclass : (cx.program.classOfType? ty).isSome = true)
    (hnew : kept.symbols.initializers.lookup ty = none) (htype : cx.program.typeName ty = .ok typeName)
    (hname : name = freeName kept.symbols.taken (mangle typeName ++ ".init")) :
    Note cx kept
      { kept with
        symbols :=
          { kept.symbols with
            initializers := kept.symbols.initializers ++ [(ty, name)], taken := name :: kept.symbols.taken }
        queue := kept.queue ++ [.initializer ty name] }

/-- Notes, one after the other. -/
abbrev Notes (cx : Context) : Selection → Selection → Prop := Relation.ReflTransGen (Note cx)

section

variable {cx : Context} {kept later : Selection}

/-- To look for a string changes nothing but the strings, which are added at the end. -/
theorem exists_string_eq (syms : SymbolTable) (contents : String) :
    ∃ added, (syms.string contents).2 = { syms with strings := syms.strings ++ added } := by
  unfold SymbolTable.string
  split
  · exact ⟨[], by simp⟩
  · exact ⟨[contents], rfl⟩

/-! ## What never changes -/

theorem Notes.subroutines_eq (h : Notes cx kept later) : later.symbols.subroutines = kept.symbols.subroutines := by
  induction h with
  | refl => rfl
  | @tail mid last _ hn ih =>
    rw [← ih]
    cases hn with
    | string contents =>
      obtain ⟨added, heq⟩ := exists_string_eq mid.symbols contents
      rw [heq]
    | _ => rfl

/-- Strings are only added, at the end. -/
theorem Notes.strings_prefix (h : Notes cx kept later) : kept.symbols.strings <+: later.symbols.strings := by
  induction h with
  | refl => exact prefix_refl _
  | @tail mid last _ hn ih =>
    refine ih.trans ?_
    cases hn with
    | string contents =>
      obtain ⟨added, heq⟩ := exists_string_eq mid.symbols contents
      rw [heq]
      exact prefix_append _ _
    | _ => exact prefix_refl _

/-- The diagnostics that are noted: errors of selection, none of them about something that should have been provided. -/
def AddsErrors (before after : Diagnostics) : Prop :=
  ∃ added : Diagnostics, after = before ++ added ∧
    ∀ diag ∈ added, diag.stage = .codegen ∧ diag.isError = true ∧ diag.kind ≠ .missingSymbol

theorem AddsErrors.refl (diags : Diagnostics) : AddsErrors diags diags := ⟨[], (append_nil _).symm, forall_mem_nil _⟩

theorem AddsErrors.trans {a b c : Diagnostics} (hab : AddsErrors a b) (hbc : AddsErrors b c) : AddsErrors a c := by
  obtain ⟨first, rfl, hf⟩ := hab
  obtain ⟨rest, rfl, hr⟩ := hbc
  exact ⟨first ++ rest, append_assoc _ _ _, forall_mem_append.mpr ⟨hf, hr⟩⟩

theorem AddsErrors.single (diags : Diagnostics) {kind : DiagnosticKind} (loc : Location) (msg : String)
    (hk : kind ≠ .missingSymbol) : AddsErrors diags (diags ++ [.error .codegen kind loc msg]) :=
  ⟨[.error .codegen kind loc msg], rfl, forall_mem_singleton.mpr ⟨rfl, rfl, hk⟩⟩

theorem Notes.addsErrors (h : Notes cx kept later) : AddsErrors kept.diagnostics later.diagnostics := by
  induction h with
  | refl => exact .refl _
  | tail _ hn ih =>
    refine ih.trans ?_
    cases hn with
    | error loc msg hk => exact .single _ loc msg hk
    | _ => exact .refl _

/-! ## What is asked for -/

/-- The work that a table of symbols has asked for. -/
def askedFor (syms : SymbolTable) : List Work :=
  syms.methods.map Work.subroutine ++ syms.initializers.map fun entry => .initializer entry.1 entry.2

/-- What is asked for is put into the queue, and nothing else is. -/
theorem Notes.asks (h : Notes cx kept later) :
    ∃ works, later.queue = kept.queue ++ works ∧ (askedFor later.symbols).Perm (askedFor kept.symbols ++ works) := by
  induction h with
  | refl => exact ⟨[], by simp, by simp⟩
  | @tail mid last _ hn ih =>
    obtain ⟨works, hq, hp⟩ := ih
    -- one note asks for one work at most
    have hone : ∃ more, last.queue = mid.queue ++ more ∧ (askedFor last.symbols).Perm (askedFor mid.symbols ++ more) := by
      cases hn with
      | string contents =>
        obtain ⟨added, heq⟩ := exists_string_eq mid.symbols contents
        exact ⟨[], by simp, by simp [heq, askedFor]⟩
      | @method id sub hid hb ho hnew =>
        refine ⟨[.subroutine id], rfl, ?_⟩
        simp only [askedFor, map_append, map_cons, map_nil, append_assoc]
        exact perm_append_comm.append_left _
      | @initializer ty typeName name hc hnew ht hnm =>
        exact ⟨[.initializer ty name], rfl, by simp [askedFor]⟩
      | _ => exact ⟨[], by simp, by simp⟩
    obtain ⟨more, hq', hp'⟩ := hone
    refine ⟨works ++ more, by rw [hq', hq, append_assoc], hp'.trans ?_⟩
    rw [← append_assoc]
    exact hp.append_right more

/-- What selection keeps is in order, if the names in `first` were taken in the beginning: it asks for methods with a body, and
for initializers of classes, for none of them twice; and initializers have new names. -/
structure Selection.InOrder (cx : Context) (first : List String) (kept : Selection) : Prop where
  methods : ∀ id ∈ kept.symbols.methods, ∃ sub, cx.program.subroutines[id]? = some sub ∧ sub.body?.isSome = true ∧ sub.owner.isSome = true
  methods_nodup : kept.symbols.methods.Nodup
  classes : ∀ entry ∈ kept.symbols.initializers, (cx.program.classOfType? entry.1).isSome = true
  types_nodup : (kept.symbols.initializers.map Prod.fst).Nodup
  wanted : ∀ entry ∈ kept.symbols.initializers, ∃ typeName suffix, cx.program.typeName entry.1 = .ok typeName ∧
    entry.2 = candidate (mangle typeName ++ ".init") suffix
  taken_eq : kept.symbols.taken = (kept.symbols.initializers.map Prod.snd).reverse ++ first
  names_nodup : (kept.symbols.initializers.map Prod.snd).Nodup
  names_new : ∀ name ∈ kept.symbols.initializers.map Prod.snd, name ∉ first

variable {first : List String}

/-- Only what is asked for and the names that are taken matter for the order. -/
theorem Selection.InOrder.congr (h : kept.InOrder cx first) (hm : later.symbols.methods = kept.symbols.methods)
    (hi : later.symbols.initializers = kept.symbols.initializers) (ht : later.symbols.taken = kept.symbols.taken) :
    later.InOrder cx first := by
  constructor
  all_goals simp only [hm, hi, ht]
  · exact h.methods
  · exact h.methods_nodup
  · exact h.classes
  · exact h.types_nodup
  · exact h.wanted
  · exact h.taken_eq
  · exact h.names_nodup
  · exact h.names_new

theorem Note.inOrder (h : Note cx kept later) (hk : kept.InOrder cx first) : later.InOrder cx first := by
  cases h with
  | elsewhere | error => exact hk.congr rfl rfl rfl
  | string contents =>
    obtain ⟨added, heq⟩ := exists_string_eq kept.symbols contents
    rw [heq]
    exact hk.congr rfl rfl rfl
  | @method id sub hid hb ho hnew =>
    refine ⟨?_, ?_, hk.classes, hk.types_nodup, hk.wanted, hk.taken_eq, hk.names_nodup, hk.names_new⟩
    · exact forall_mem_append.mpr ⟨hk.methods, forall_mem_singleton.mpr ⟨sub, hid, hb, ho⟩⟩
    · rw [nodup_append']
      exact ⟨hk.methods_nodup, nodup_singleton id, disjoint_singleton.mpr hnew⟩
  | @initializer ty typeName name hc hnew ht hn =>
    obtain ⟨hf, suffix, hs⟩ := freeName_spec kept.symbols.taken (mangle typeName ++ ".init")
    rw [← hn] at hf hs
    have htype_new : ty ∉ kept.symbols.initializers.map Prod.fst := by
      intro hmem
      obtain ⟨entry, he, rfl⟩ := mem_map.mp hmem
      exact absurd (lookup_eq_none_iff.mp hnew entry he) (by simp)
    rw [hk.taken_eq, mem_append, mem_reverse, not_or] at hf
    refine ⟨hk.methods, hk.methods_nodup, ?_, ?_, ?_, ?_, ?_, ?_⟩
    · exact forall_mem_append.mpr ⟨hk.classes, forall_mem_singleton.mpr hc⟩
    · rw [map_append, nodup_append']
      exact ⟨hk.types_nodup, nodup_singleton ty, disjoint_singleton.mpr htype_new⟩
    · exact forall_mem_append.mpr ⟨hk.wanted, forall_mem_singleton.mpr ⟨typeName, suffix, ht, hs⟩⟩
    · simp [hk.taken_eq]
    · rw [map_append, nodup_append']
      exact ⟨hk.names_nodup, nodup_singleton name, disjoint_singleton.mpr hf.1⟩
    · rw [map_append]
      exact forall_mem_append.mpr ⟨hk.names_new, forall_mem_singleton.mpr hf.2⟩

theorem Notes.inOrder (h : Notes cx kept later) (hk : kept.InOrder cx first) : later.InOrder cx first := by
  induction h with
  | refl => exact hk
  | tail _ hn ih => exact hn.inOrder ih

/-- Never is more asked for than there are subroutines and classes. -/
theorem Selection.InOrder.length_askedFor (h : kept.InOrder cx first) :
    (askedFor kept.symbols).length ≤ cx.program.subroutines.length + cx.program.classes.length := by
  have hm : kept.symbols.methods.length ≤ cx.program.subroutines.length := by
    refine Flow.length_le_of_nodup_of_lt h.methods_nodup fun id hid => ?_
    obtain ⟨sub, hs, -⟩ := h.methods id hid
    exact (List.getElem?_eq_some_iff.mp hs).1
  have hi : kept.symbols.initializers.length ≤ cx.program.classes.length := by
    have hsb : kept.symbols.initializers.map Prod.fst ⊆ cx.program.classes.map (·.ty) := by
      intro ty hty
      obtain ⟨entry, he, rfl⟩ := mem_map.mp hty
      obtain ⟨decl, hd⟩ := Option.isSome_iff_exists.mp (h.classes entry he)
      have hf := find?_some hd
      exact mem_map.mpr ⟨decl, mem_of_find?_eq_some hd, of_decide_eq_true hf⟩
    have hle := h.types_nodup.length_le_of_subset hsb
    simpa using hle
  simp only [askedFor, length_append, length_map]
  omega

/-! ## Names that will be defined -/

/-- A name that code may mention: it is defined elsewhere, or it is the name of a string that was noted, of a subroutine that is
emitted or waits for that, or of an initializer that was asked for. -/
inductive Knows (cx : Context) (kept : Selection) : String → Prop where
  | elsewhere {name : String} (h : name ∈ kept.externs) : Knows cx kept name
  | string {id : Nat} (h : id < kept.symbols.strings.length) : Knows cx kept (SymbolTable.stringName id)
  | subroutine {id : SubroutineId} {sub : Subroutine} {name : String}
    (hid : cx.program.subroutines[id]? = some sub) (hbody : sub.body?.isSome = true)
    (hname : kept.symbols.subroutine? id = some name) (hmethod : sub.owner.isSome = true → id ∈ kept.symbols.methods) :
    Knows cx kept name
  | initializer {ty : TypeId} {name : String} (h : (ty, name) ∈ kept.symbols.initializers) : Knows cx kept name

variable {name : String}

theorem mem_insertNew_of_mem {names : List String} (new : String) (h : name ∈ names) : name ∈ insertNew names new := by
  unfold insertNew
  split
  · exact h
  · exact mem_append_left _ h

theorem mem_insertNew_self (names : List String) (name : String) : name ∈ insertNew names name := by
  unfold insertNew
  split
  · assumption
  · exact mem_append_right _ (mem_singleton_self name)

/-- What is known stays known as long as nothing is taken back. -/
theorem Knows.mono (h : Knows cx kept name) (he : kept.externs ⊆ later.externs)
    (hs : kept.symbols.strings.length ≤ later.symbols.strings.length)
    (hsb : later.symbols.subroutines = kept.symbols.subroutines)
    (hms : kept.symbols.methods ⊆ later.symbols.methods)
    (hi : kept.symbols.initializers ⊆ later.symbols.initializers) : Knows cx later name := by
  cases h with
  | elsewhere h => exact .elsewhere (he h)
  | string h => exact .string (Nat.lt_of_lt_of_le h hs)
  | subroutine hid hb hn hm =>
    refine .subroutine hid hb ?_ fun ho => hms (hm ho)
    rwa [SymbolTable.subroutine?, hsb]
  | initializer h => exact .initializer (hi h)

/-- What is known before a note is known after it. -/
theorem Note.knows (h : Note cx kept later) (hn : Knows cx kept name) : Knows cx later name := by
  cases h with
  | elsewhere new =>
    exact hn.mono (fun _ hmem => mem_insertNew_of_mem new hmem) (Nat.le_refl _) rfl (Subset.refl _) (Subset.refl _)
  | error loc msg hk =>
    exact hn.mono (Subset.refl _) (Nat.le_refl _) rfl (Subset.refl _) (Subset.refl _)
  | string contents =>
    obtain ⟨added, heq⟩ := exists_string_eq kept.symbols contents
    rw [heq]
    exact hn.mono (Subset.refl _) (by simp) rfl (Subset.refl _) (Subset.refl _)
  | method _ _ _ _ =>
    exact hn.mono (Subset.refl _) (Nat.le_refl _) rfl (subset_append_left _ _) (Subset.refl _)
  | initializer _ _ _ _ =>
    exact hn.mono (Subset.refl _) (Nat.le_refl _) rfl (Subset.refl _) (subset_append_left _ _)

theorem Notes.knows (h : Notes cx kept later) (hn : Knows cx kept name) : Knows cx later name := by
  induction h with
  | refl => exact hn
  | tail _ hnt ih => exact hnt.knows ih

end

end TagAsm.Select
