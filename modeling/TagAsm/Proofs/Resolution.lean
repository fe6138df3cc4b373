import TagAsm.Proofs.Consistency
import TagAsm.Proofs.Reporting

/-!
# Which symbols are shared

Names that the program gives to its own code are kept apart: each is taken before the next one is looked for. Native names are kept to
the letter and are not taken, so the code of a program can get a name that a native function has as well. That is the only way in
which two subroutines, or a subroutine and an initializer, come to share a symbol, unless both are native.
-/

namespace TagAsm.Asm

open TagAsm.Flow (SubroutineId Subroutine)

/-! ## Native names -/

/-- Subroutines with a native name go by it. -/
def NativeNamed (subroutines : List Subroutine) (names : Table String) : Prop :=
  List.Forall₂ (fun sub name => ∀ native, SymbolTable.nativeName? sub = some native → name = native) subroutines names

variable {prog : Flow.Program}

theorem NativeNamed.step {done : List Subroutine} {names next : Table String × List String} {sub : Subroutine}
    (h : NativeNamed done names.1) (hs : SymbolTable.nameSubroutine prog names sub = .ok next) :
    NativeNamed (done ++ [sub]) next.1 := by
  unfold SymbolTable.nameSubroutine at hs
  cases hn : SymbolTable.nativeName? sub with
  | some name =>
    rw [hn] at hs
    cases hs
    refine List.rel_append h (.cons (fun native heq => ?_) .nil)
    exact Option.some.inj (hn.symm.trans heq)
  | none =>
    rw [hn] at hs
    obtain ⟨base, -, hr⟩ := of_bind_eq_ok hs
    cases hr
    refine List.rel_append h (.cons (fun native heq => ?_) .nil)
    rw [hn] at heq
    cases heq

variable {table : SymbolTable}

theorem nativeNamed_ofProgram {reserved : List String} (h : SymbolTable.ofProgram prog reserved = .ok table) :
    NativeNamed prog.subroutines table.subroutines := by
  obtain ⟨⟨subroutines, taken⟩, hl, hr⟩ := of_bind_eq_ok h
  cases hr
  have he : NativeNamed [] [] := .nil
  exact foldlM_reaches (fun done (names : Table String × List String) => NativeNamed done names.1)
    (fun _ _ _ _ hn hs => hn.step hs) prog.subroutines he hl

/-! ## Symbols that are asked for later -/

/-- A table of symbols after strings, initializers and methods were asked for. -/
inductive SymbolTable.Later (prog : Flow.Program) (table : SymbolTable) : SymbolTable → Prop where
  | now : Later prog table table
  | string {later : SymbolTable} (h : Later prog table later) (contents : String) : Later prog table (later.string contents).2
  | initializer {later last : SymbolTable} {ty : TypeId} {res : String × Bool} (h : Later prog table later)
    (hask : later.initializer prog ty = .ok (res, last)) : Later prog table last
  | method {later : SymbolTable} (h : Later prog table later) (id : SubroutineId) : Later prog table (later.referenceMethod id).2

/-- What a later table has from the first one: no initializer goes by a name that was taken in the beginning. -/
structure SymbolTable.Grown (table later : SymbolTable) : Prop where
  taken_subset : table.taken ⊆ later.taken
  fresh : ∀ entry ∈ later.initializers, entry.2 ∉ table.taken

/-- An initializer gets a name that was not taken in the beginning. -/
theorem SymbolTable.Grown.initializer {later last : SymbolTable} (h : table.Grown later) {ty : TypeId} {res : String × Bool}
    (hask : later.initializer prog ty = .ok (res, last)) : table.Grown last ∧ res.1 ∉ table.taken := by
  unfold SymbolTable.initializer at hask
  cases hf : later.initializers.lookup ty with
  | some name =>
    rw [hf] at hask
    cases hask
    obtain ⟨before, rest, he, -⟩ := List.lookup_eq_some_iff.mp hf
    exact ⟨h, h.fresh (ty, name) (by simp [he])⟩
  | none =>
    rw [hf] at hask
    obtain ⟨typeName, -, hask⟩ := of_bind_eq_ok hask
    cases hask
    have hfr := (freeName_spec later.taken (mangle typeName ++ ".init")).1
    have hnew : freeName later.taken (mangle typeName ++ ".init") ∉ table.taken := fun ht => hfr (h.taken_subset ht)
    refine ⟨⟨fun name hn => List.mem_cons_of_mem _ (h.taken_subset hn), ?_⟩, hnew⟩
    exact List.forall_mem_append.mpr ⟨h.fresh, List.forall_mem_singleton.mpr hnew⟩

theorem SymbolTable.Later.grown {later : SymbolTable} (hn : table.initializers = [])
    (h : Later prog table later) : table.Grown later := by
  induction h with
  | now => exact ⟨List.Subset.refl _, fun entry he => absurd he (hn ▸ List.not_mem_nil)⟩
  | @string later h contents ih =>
    unfold SymbolTable.string
    split
    · exact ih
    · exact ⟨ih.taken_subset, ih.fresh⟩
  | initializer h hask ih => exact (ih.initializer hask).1
  | @method later h id ih =>
    unfold referenceMethod
    split
    · exact ih
    · exact ⟨ih.taken_subset, ih.fresh⟩

end TagAsm.Asm

namespace TagAsm.Lower

open TagAsm.Flow
open TagAsm.Asm (SymbolTable)
open Source (Function)

/-! ## What is imported -/

variable {src : Source.Program}

/-- Only what was imported is an import. -/
theorem lowerKind_imported {fn : Function} {lowering after : Lowering} {library : String} {entryPoint : Option String}
    (h : lowerKind src fn lowering = .ok (.imported library entryPoint, after)) :
    fn.kind = .imported library entryPoint := by
  unfold lowerKind at h
  split at h
  · obtain ⟨_, -, hr⟩ := of_bind_eq_ok h
    cases (ok_pair_inj hr).1
  · cases (ok_pair_inj h).1
  · rename_i hk
    rw [hk]
    obtain ⟨rfl, rfl⟩ := SubroutineKind.imported.inj (ok_pair_inj h).1
    rfl

variable {diags after : Diagnostics} {prog : Flow.Program}

theorem lowerProgram_imported (h : lowerProgram src diags = .ok (prog, after)) :
    List.Forall₂ (fun entry sub => ∀ library entryPoint, sub.kind = .imported library entryPoint →
      entry.2.kind = .imported library entryPoint) src.functions.entries prog.subroutines := by
  obtain ⟨lowering, hf, hrs⟩ := of_bind_eq_ok h
  obtain ⟨⟨classes, last⟩, -, hr⟩ := of_bind_eq_ok hrs
  cases hr
  refine foldlM_reaches (fun done lowering => List.Forall₂ (fun entry sub => ∀ library entryPoint,
    sub.kind = .imported library entryPoint → entry.2.kind = .imported library entryPoint) done lowering.subroutines)
    (fun done lowering entry next hd hn => ?_) src.functions.entries .nil hf
  obtain ⟨⟨kind, low⟩, hk, hr⟩ := of_bind_eq_ok hn
  obtain ⟨hs, -, -⟩ := lowerKind_standsFor hk
  cases hr
  rw [Table.push, hs]
  refine List.rel_append hd (.cons (fun library entryPoint heq => ?_) .nil)
  subst heq
  exact lowerKind_imported hk

/-- A native subroutine: it has no body, and its symbol is its name, to the letter. -/
structure NativeUnder (sub : Subroutine) (sym : String) : Prop where
  foreign : sub.isForeign = true
  bodiless : sub.body? = none
  name_eq : sub.symbol.name = sym

/-- In a program that was built, a native name is that of an import. -/
theorem nativeUnder_of_nativeName? (hbl : ∀ fn ∈ src.functions, fn.IsBuilt)
    (h : lowerProgram src diags = .ok (prog, after)) {id : SubroutineId} {sub : Subroutine}
    (hid : prog.subroutines[id]? = some sub) {name : String} (hn : SymbolTable.nativeName? sub = some name) :
    NativeUnder sub name := by
  obtain ⟨fn, hfn, hs⟩ := (lowerProgram_renders h).1.exists_function hid
  have hf := hbl fn (List.mem_of_getElem? hfn)
  have hi : ∀ library entryPoint, sub.kind = .imported library entryPoint → fn.kind = .imported library entryPoint := by
    obtain ⟨entry, he, hk⟩ := getElem?_of_forall₂ (lowerProgram_imported h).flip hid
    rw [getElem?_entries, hfn] at he
    cases he
    exact hk
  have hb := hs.body_isSome
  unfold SymbolTable.nativeName? at hn
  unfold Function.IsBuilt at hf
  split at hn
  · -- an import under another name is not built
    rename_i library entryPoint hk
    rw [hi _ _ hk] at hf
    cases hf.2
  · split at hn
    · rename_i hfr
      have hl : fn.linkage = .foreign := by
        rw [← hs.linkage_eq]
        exact of_decide_eq_true hfr
      refine ⟨hfr, ?_, Option.some.inj hn⟩
      rw [hl] at hf
      cases hk : fn.kind with
      | imported library entryPoint =>
        rw [hasBody, hk] at hb
        exact Option.not_isSome_iff_eq_none.mp (by simp [hb])
      | declared | defined =>
        rw [hk] at hf
        cases hf
    · cases hn

/-! ## Programs that were built -/

section

variable {src : Source.Program} {diags after : Diagnostics} {prog : Flow.Program} {reserved : List String}
  {table : SymbolTable}

/-- The symbol of a subroutine is native, or it is its own. -/
theorem native_or_own (hb : ∀ fn ∈ src.functions, fn.IsBuilt)
    (hl : lowerProgram src diags = .ok (prog, after)) (ht : SymbolTable.ofProgram prog reserved = .ok table)
    {id : SubroutineId} {sub : Subroutine} {sym : String} (hid : prog.subroutines[id]? = some sub)
    (hs : table.subroutine? id = some sym) :
    NativeUnder sub sym ∨ Asm.OwnName prog.subroutines table.subroutines id sym := by
  cases hn : SymbolTable.nativeName? sub with
  | none => exact Or.inr ⟨hs, sub, hid, hn⟩
  | some name =>
    obtain ⟨found, hf, hnm⟩ := getElem?_of_forall₂ (Asm.nativeNamed_ofProgram ht) hid
    cases hs.symm.trans hf
    obtain rfl := hnm name hn
    exact Or.inl (nativeUnder_of_nativeName? hb hl hid hn)

end

end TagAsm.Lower

namespace TagAsm

open TagAsm.Flow (SubroutineId Subroutine)
open TagAsm.Asm (SymbolTable)
open TagAsm.Source.Build (Builds)

/-- In a program that was built, every subroutine has a symbol, and different subroutines of which one has a body have different ones,
unless the other one is a native import whose name is that symbol to the letter. A symbol that is handed out for an initializer later
differs from those of all subroutines, but for native imports of that name. -/
theorem shared_symbol_is_native {α : Type} {steps : Source.Build α} (hbuilds : Builds steps) {result : α} {builder : Source.Builder}
    (hrun : steps.run .empty = .ok (result, builder)) {diagnostics after : Diagnostics} {program : Flow.Program}
    (hlower : Lower.lowerProgram builder.program diagnostics = .ok (program, after)) {reserved : List String} {table : SymbolTable}
    (htable : SymbolTable.ofProgram program reserved = .ok table) :
    (∀ id < program.subroutines.length, ∃ symbol, table.subroutine? id = some symbol) ∧
      (∀ (a b : SubroutineId) (first second : Subroutine) (symbol : String), a ≠ b → program.subroutines[a]? = some first →
        program.subroutines[b]? = some second → first.body?.isSome = true ∨ second.body?.isSome = true →
        table.subroutine? a = some symbol → table.subroutine? b = some symbol →
        first.body?.isSome = true ∧ Lower.NativeUnder second symbol ∨ second.body?.isSome = true ∧ Lower.NativeUnder first symbol) ∧
      ∀ (later last : SymbolTable) (ty : TypeId) (symbol : String) (isFirst : Bool) (id : SubroutineId) (subroutine : Subroutine),
        SymbolTable.Later program table later → later.initializer program ty = .ok ((symbol, isFirst), last) →
        program.subroutines[id]? = some subroutine → table.subroutine? id = some symbol → Lower.NativeUnder subroutine symbol := by
  have hsorted := hbuilds.sorted hrun
  obtain ⟨hnamed, -, hinitializers, -⟩ := Asm.named_ofProgram htable
  refine ⟨fun id hid => ?_, fun a b first second symbol hne ha hb hbody hsymbol hsymbol' => ?_,
    fun later last ty symbol isFirst id subroutine hlater hask hid hsymbol => ?_⟩
  · have hlt : id < table.subroutines.length := hnamed.length_eq ▸ hid
    exact ⟨_, List.getElem?_eq_getElem hlt⟩
  · rcases Lower.native_or_own hsorted hlower htable ha hsymbol with hnative | hown
    · exact Or.inr ⟨hbody.resolve_left (by simp [hnative.bodiless]), hnative⟩
    · rcases Lower.native_or_own hsorted hlower htable hb hsymbol' with hnative | hown'
      · exact Or.inl ⟨hbody.resolve_right (by simp [hnative.bodiless]), hnative⟩
      · exact absurd (hnamed.distinct a b symbol hown hown') hne
  · rcases Lower.native_or_own hsorted hlower htable hid hsymbol with hnative | hown
    · exact hnative
    · have hfree := ((hlater.grown hinitializers).initializer hask).2
      exact absurd (hnamed.taken id symbol hown).1 hfree

/-- Two functions that are called `twice` and a class that is called `Point`, and native functions called `twice` and `Point.init`. -/
def rivals : Source.Build Unit := do
  let num ← Source.Build.primitiveType .int
  let _ ← Source.Build.importFrom "c" "twice" [num] num
  let _ ← Source.Build.function "twice" [("x", num)] num
  let _ ← Source.Build.function "twice" [("y", num)] num
  let _ ← Source.Build.importFrom "c" "Point.init" [] num
  let _ ← Source.Build.addClass "Point" none []
  return ()

theorem builds_rivals : Builds rivals := by
  refine .bind (.call (.primitiveType .int)) fun num => ?_
  refine .bind (.call (.importFrom "c" "twice" [num] num)) fun _ => .bind (.call (.function "twice" [("x", num)] num)) fun _ => ?_
  refine .bind (.call (.function "twice" [("y", num)] num)) fun _ => .bind (.call (.importFrom "c" "Point.init" [] num)) fun _ => ?_
  exact .bind (.call (.addClass "Point" none [])) fun _ => .pure ()

/-- The symbols of the rivals, and the first initializer that is asked for. -/
def rivalSymbols : Except Fault (List Bool × List String × String × Bool) := do
  let (_, builder) ← rivals.run .empty
  let (prog, _) ← Lower.lowerProgram builder.program []
  let table ← SymbolTable.ofProgram prog []
  let ((initializer, first), _) ← table.initializer prog 3
  return (prog.subroutines.map (·.body?.isSome), table.subroutines, initializer, first)

theorem exists_rivals : ∃ bld prog after table last, rivals.run .empty = .ok ((), bld) ∧
    Lower.lowerProgram bld.program [] = .ok (prog, after) ∧ SymbolTable.ofProgram prog [] = .ok table ∧
    prog.subroutines.map (·.body?.isSome) = [false, true, true, false] ∧
    table.subroutines = ["twice", "twice", "twice.1", "Point.init"] ∧
    table.initializer prog 3 = .ok (("Point.init", true), last) := by
  have hs : rivalSymbols = .ok ([false, true, true, false], ["twice", "twice", "twice.1", "Point.init"], "Point.init", true) := by
    decide +kernel
  obtain ⟨⟨res, bld⟩, hrun, h⟩ := of_bind_eq_ok hs
  obtain ⟨⟨prog, after⟩, hl, h⟩ := of_bind_eq_ok h
  obtain ⟨table, ht, h⟩ := of_bind_eq_ok h
  obtain ⟨⟨⟨initializer, first⟩, last⟩, hask, h⟩ := of_bind_eq_ok h
  obtain ⟨hb, h⟩ := ok_pair_inj h
  obtain ⟨hn, h⟩ := Prod.mk.inj h
  cases h
  exact ⟨bld, prog, after, table, last, hrun, hl, ht, hb, hn, hask⟩

/-- Native names are not kept apart from others: a native function and a function with a body have the symbol `twice`, and another native
function has the symbol of the initializer of `Point`. -/
theorem rivals_share_symbols : Builds rivals ∧ ∃ builder program after table last, rivals.run .empty = .ok ((), builder) ∧
    Lower.lowerProgram builder.program [] = .ok (program, after) ∧ SymbolTable.ofProgram program [] = .ok table ∧
    program.subroutines[1]?.map (·.body?.isSome) = some true ∧
    table.subroutine? 0 = some "twice" ∧ table.subroutine? 1 = some "twice" ∧
    table.subroutine? 3 = some "Point.init" ∧ table.initializer program 3 = .ok (("Point.init", true), last) := by
  obtain ⟨builder, program, after, table, last, hrun, hlower, htable, hbodies, hnames, hask⟩ := exists_rivals
  refine ⟨builds_rivals, builder, program, after, table, last, hrun, hlower, htable, ?_, ?_, ?_, ?_, hask⟩
  · rw [← List.getElem?_map, hbodies]
    rfl
  all_goals
    rw [SymbolTable.subroutine?, hnames]
    rfl

/-- The two functions with bodies have different symbols, and where the symbol `twice` is shared, the other one is native. -/
theorem shared_symbol_is_native_rivals : Builds rivals ∧ ∃ builder program after table, rivals.run .empty = .ok ((), builder) ∧
    Lower.lowerProgram builder.program [] = .ok (program, after) ∧ SymbolTable.ofProgram program [] = .ok table ∧
    table.subroutines = ["twice", "twice", "twice.1", "Point.init"] ∧
    (∀ id < program.subroutines.length, ∃ symbol, table.subroutine? id = some symbol) ∧
      (∀ (a b : SubroutineId) (first second : Subroutine) (symbol : String), a ≠ b → program.subroutines[a]? = some first →
        program.subroutines[b]? = some second → first.body?.isSome = true ∨ second.body?.isSome = true →
        table.subroutine? a = some symbol → table.subroutine? b = some symbol →
        first.body?.isSome = true ∧ Lower.NativeUnder second symbol ∨ second.body?.isSome = true ∧ Lower.NativeUnder first symbol) ∧
      ∀ (later last : SymbolTable) (ty : TypeId) (symbol : String) (isFirst : Bool) (id : SubroutineId) (subroutine : Subroutine),
        SymbolTable.Later program table later → later.initializer program ty = .ok ((symbol, isFirst), last) →
        program.subroutines[id]? = some subroutine → table.subroutine? id = some symbol → Lower.NativeUnder subroutine symbol := by
  obtain ⟨builder, program, after, table, last, hrun, hlower, htable, -, hnames, -⟩ := exists_rivals
  exact ⟨builds_rivals, builder, program, after, table, hrun, hlower, htable, hnames,
    shared_symbol_is_native builds_rivals hrun hlower htable⟩

end TagAsm
