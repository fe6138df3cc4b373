import TagAsm.Proofs.Linking

/-!
# The start of the process

A program with an entry starts with code that calls the entry subroutine, whose own code ends the process. Where no error is
reported, only one sort of entry goes without: a method that has a body and that nothing refers to. It never gets into the queue,
so it is not emitted, and as it was not refused either nothing is said about it.
-/

namespace TagAsm.Select

open Asm Abi SelectM
open TagAsm.Flow (SubroutineId Body)

/-- Code under an exported symbol that ends with the system call for that. -/
def EndsProcess (sym : String) (items : List Item) : Prop :=
  ∃ middle, items = Item.exportedLabel sym ++ middle ++ Item.code Instruction.exitProcess ++ [.label (localLabel sym "exit")]

/-- Text that starts with the exported start symbol, with code under it that calls another symbol in the end. -/
def StartsProcess (sym : String) (text : List Item) : Prop :=
  ∃ ops rest, text = Item.exportedLabel startSymbol ++ Item.code (ops ++ [.call (.symbol sym)]) ++ rest

theorem startCode_startsProcess (sym : String) : Yields (startCode sym) (StartsProcess sym) := by
  intro kept items after hrun
  obtain ⟨hi, -⟩ := ok_pair_inj hrun
  cases hi
  exact ⟨[.movq (.quad .rsp) (.quad .rbp), .subq 32 .rsp, .leaq (.frame (-32)) .rdi, .call (.symbol Helper.makeNone.symbol),
    .leaq (.frame (-32)) .rdi], [], rfl⟩

theorem StartsProcess.append {sym : String} {text : List Item} (h : StartsProcess sym text) (more : List Item) :
    StartsProcess sym (text ++ more) := by
  obtain ⟨ops, rest, rfl⟩ := h
  exact ⟨ops, rest ++ more, List.append_assoc _ _ _⟩

/-- The code of the entry subroutine ends the process. -/
theorem SubroutineCode.endsProcess {cx : Context} {sym : String} {body : Body} {frame : Frame} {items : List Item}
    (h : SubroutineCode cx sym body frame true items) : EndsProcess sym items := by
  obtain ⟨head, codes, tail, rfl, ho, -, hc⟩ := h
  obtain ⟨rest, rfl, -⟩ := ho.head
  obtain ⟨drops, leave, -, ⟨steps, -, rfl⟩, rfl⟩ := hc
  refine ⟨rest ++ codes.flatten ++ .label (localLabel sym "deinit") :: (drops ++ .label (localLabel sym "epilogue") :: steps), ?_⟩
  simp [Item.exportedLabel]

section

variable {cx : Context} {diags : Diagnostics} {syms : SymbolTable} {parts : List (Work × Outcome)}
  {drained last : Emission} {entry : SubroutineId}

variable (h : Selected cx diags syms parts drained last) (hprepared : cx.Prepared)
  (hentry : cx.program.entry = some entry)
include h hprepared hentry

/-- An entry that was emitted is started. -/
theorem Selected.startsProcess {items : List Item} (hp : (Work.subroutine entry, Outcome.emitted items) ∈ parts) :
    ∃ sub body sym frame, cx.program.subroutines[entry]? = some sub ∧ sub.kind = .defined body ∧
      syms.subroutine? entry = some sym ∧ SubroutineCode cx sym body frame true items ∧
      StartsProcess sym last.text := by
  have ha := h.assembled hprepared
  have hk := h.bookkept hprepared
  have he : entry ∈ drained.emitted := (ha.mem_emitted entry).mpr ⟨items, hp⟩
  cases ha.emits _ items hp with
  | @subroutine _ sub body sym _ frame hid hb hsy hc hl =>
    rw [decide_eq_true hentry] at hc
    refine ⟨sub, body, sym, frame, hid, hb, hsy, hc, ?_⟩
    have hsm : drained.kept.symbolOf entry = sym := Option.some.inj ((hk.aligned.subroutine?_eq hk.subroutines_eq hid).symm.trans hsy)
    obtain ⟨start, hss⟩ := starts_of_emitStart h.emitStart_eq
    cases hss with
    | @started found _ kept hf _ hrun =>
      cases hentry.symm.trans hf
      have hs := startCode_startsProcess _ _ _ _ hrun
      rw [hsm] at hs
      exact hs.append drained.text
    | entryless hn =>
      rw [hentry] at hn
      cases hn
    | nameless hf _ hn =>
      cases hentry.symm.trans hf
      cases hn.symm.trans (hk.aligned.subroutine?_eq rfl hid)
    | bodiless hf hnot _ _ | leftOut hf hnot _ _ | unknown hf hnot _ =>
      exact absurd (Option.some.inj (hentry.symm.trans hf) ▸ he) hnot

/-- An entry that was not emitted is not started; if it has no body, that is an error. -/
theorem Selected.idle (hps : ∀ items, (Work.subroutine entry, Outcome.emitted items) ∉ parts)
    (heos : last.kept.diagnostics.hasErrors = false) :
    last.text = (parts.flatMap fun part => part.2.items) ∧
      ∀ sub, cx.program.subroutines[entry]? = some sub → sub.body?.isSome = true := by
  have ha := h.assembled hprepared
  have hnot : entry ∉ drained.emitted := by
    intro hmem
    obtain ⟨items, hp⟩ := (ha.mem_emitted entry).mp hmem
    exact hps items hp
  obtain ⟨start, hs⟩ := starts_of_emitStart h.emitStart_eq
  cases hs with
  | started hf he _ | nameless hf he _ => exact absurd he (Option.some.inj (hentry.symm.trans hf) ▸ hnot)
  | entryless hn =>
    rw [hentry] at hn
    cases hn
  | bodiless hf _ hid hb =>
    have heo := isError_eq_false_of_hasErrors heos _ (List.mem_append_right _ (List.mem_singleton_self _))
    cases heo
  | @leftOut found sub hf _ hid hb =>
    cases hentry.symm.trans hf
    refine ⟨ha.text_eq, fun other ho => ?_⟩
    cases hid.symm.trans ho
    exact hb
  | @unknown found hf _ hid =>
    cases hentry.symm.trans hf
    refine ⟨ha.text_eq, fun other ho => ?_⟩
    rw [hid] at ho
    cases ho

end

end TagAsm.Select

namespace TagAsm

open Asm Abi Select

/-- What becomes of the entry of a program for which no error is reported. Unless it is a method that is not among the methods that
were referred to, the text starts with the exported start symbol, with code that calls the symbol under which the entry subroutine
is emitted, and the code of the entry subroutine ends with the system call that ends the process. Such a method has a body, but it
is not emitted, and nothing starts the process. -/
theorem startsProcess_selectProgram (options : Options) (colored : Bool) (source : Source.Program) (program : Flow.Program)
    (middle after : Diagnostics) (unit : AssemblyUnit) (entry : Source.FunctionId) (function : Source.Function)
    (hentry : source.entry = some entry) (hfunction : source.functions[entry]? = some function)
    (hflow : (compileToFlow options source).start = .ok (.ok program, middle))
    (hselect : selectProgram ⟨program, options.debugInfo, colored⟩ middle = .ok (unit, after))
    (herrors : after.hasErrors = false) :
    ∃ symbols parts drained last, Selected ⟨program, options.debugInfo, colored⟩ middle symbols parts drained last ∧
      unit = last.toUnit options.debugInfo ∧
      ((function.isMethod = true → entry ∈ drained.kept.symbols.methods) →
        ∃ subroutine body symbol frame items before rest, program.subroutines[entry]? = some subroutine ∧
          subroutine.kind = .defined body ∧ symbols.subroutine? entry = some symbol ∧ StartsProcess symbol unit.text ∧
          unit.text = before ++ items ++ rest ∧
          SubroutineCode ⟨program, options.debugInfo, colored⟩ symbol body frame true items ∧ EndsProcess symbol items) ∧
      (function.isMethod = true → entry ∉ drained.kept.symbols.methods →
        Lower.hasBody function = true ∧ (∀ outcome, (Work.subroutine entry, outcome) ∉ parts) ∧
          unit.text = parts.flatMap fun part => part.2.items) := by
  obtain ⟨hrenders, -⟩ := compileToFlow_renders hflow
  have hprepared := hrenders.prepared options.debugInfo colored
  obtain ⟨symbols, parts, drained, last, hselected, rfl, rfl⟩ := selected_of_selectProgram hprepared hselect
  have hstarted : program.entry = some entry := hrenders.entry_eq.trans hentry
  obtain ⟨subroutine, hid, hstands⟩ := hrenders.exists_subroutine hfunction
  have hasked : Work.subroutine entry ∈ allWork program drained.kept.symbols ↔
      entry ∈ program.defined ∨ entry ∈ drained.kept.symbols.methods := by
    simp [mem_allWork]
  have hdefined : entry ∈ program.defined ↔ Lower.hasBody function = true ∧ function.isMethod = false := by
    simp [hrenders.mem_defined, hfunction]
  have hbody : (∀ items, (Work.subroutine entry, Outcome.emitted items) ∉ parts) → Lower.hasBody function = true := by
    intro hnone
    rw [← hstands.body_isSome]
    exact (hselected.idle hprepared hstarted hnone herrors).2 subroutine hid
  refine ⟨symbols, parts, drained, last, hselected, rfl, fun hreferred => ?_, fun hmethod hunreferred => ?_⟩
  · -- with a body, the entry waits in the beginning or from the time that it was referred to
    have hemitted : ∃ items, (Work.subroutine entry, Outcome.emitted items) ∈ parts := by
      by_contra hnone
      have hnone := not_exists.mp hnone
      refine (hselected.exists_emitted hprepared herrors (hasked.mpr ?_)).elim hnone
      cases hmethod : function.isMethod with
      | false => exact Or.inl (hdefined.mpr ⟨hbody hnone, hmethod⟩)
      | true => exact Or.inr (hreferred hmethod)
    obtain ⟨items, hpart⟩ := hemitted
    obtain ⟨found, body, symbol, frame, hfound, hkind, hsymbol, hcode, hstart⟩ := hselected.startsProcess hprepared hstarted hpart
    obtain ⟨start, hstarts⟩ := starts_of_emitStart hselected.emitStart_eq
    obtain ⟨before, rest, rfl⟩ := List.append_of_mem hpart
    refine ⟨found, body, symbol, frame, items, start ++ before.flatMap (fun part => part.2.items),
      rest.flatMap (fun part => part.2.items), hfound, hkind, hsymbol, ?_, ?_, hcode, hcode.endsProcess⟩
    · rwa [toUnit_text]
    · rw [toUnit_text, hstarts.text_eq, (hselected.assembled hprepared).text_eq]
      simp [Outcome.items]
  · have hnone : ∀ outcome, (Work.subroutine entry, outcome) ∉ parts := by
      intro outcome hpart
      have hmem := (hselected.perm hprepared).mem_iff.mp (List.mem_map_of_mem hpart)
      rcases hasked.mp hmem with hmem | hmem
      · rw [hdefined, hmethod] at hmem
        cases hmem.2
      · exact hunreferred hmem
    refine ⟨hbody fun items => hnone (.emitted items), hnone, ?_⟩
    rw [toUnit_text]
    exact (hselected.idle hprepared hstarted (fun items => hnone (.emitted items)) herrors).1

/-- The workshop starts with code that calls its first function, which ends the process. -/
theorem startsProcess_selectProgram_workshop :
    ∃ program middle unit symbols parts drained last subroutine body symbol frame items before rest,
      (compileToFlow ⟨true, true, true⟩ workshop).start = .ok (.ok program, middle) ∧
      selectProgram ⟨program, true, false⟩ middle = .ok (unit, []) ∧
      Selected ⟨program, true, false⟩ middle symbols parts drained last ∧
      program.subroutines[0]? = some subroutine ∧ subroutine.kind = .defined body ∧
      symbols.subroutine? 0 = some symbol ∧ StartsProcess symbol unit.text ∧ unit.text = before ++ items ++ rest ∧
      SubroutineCode ⟨program, true, false⟩ symbol body frame true items ∧ EndsProcess symbol items := by
  obtain ⟨program, middle, unit, hflow, hselect⟩ := exists_selectProgram_workshop
  obtain ⟨symbols, parts, drained, last, hselected, -, hstarts, -⟩ :=
    startsProcess_selectProgram ⟨true, true, true⟩ false workshop program middle [] unit 0 _ rfl rfl hflow hselect rfl
  obtain ⟨subroutine, body, symbol, frame, items, before, rest, hrest⟩ := hstarts fun hmethod => by cases hmethod
  exact ⟨program, middle, unit, symbols, parts, drained, last, subroutine, body, symbol, frame, items, before, rest, hflow, hselect,
    hselected, hrest⟩

/-- A program whose entry is a method, with a body that takes no parameters, and that nothing refers to. -/
def idleEntry : Source.Program where
  files := []
  types := ⟨[.void, .classType 0 [], .function [] 0]⟩
  functions := [⟨⟨"main", .unknown⟩, 2, .internal, true, .defined [] [] (.block .unknown [])⟩]
  classes := [⟨⟨"App", .unknown⟩, 1, none, [], [0]⟩]
  entry := some 0

/-- Not every program with an entry gets code that starts the process, or an error: this one gets nothing at all. -/
theorem idleEntry_not_started : idleEntry.entry = some 0 ∧ 0 < idleEntry.functions.length ∧
      ∃ program unit, (compileToFlow .standard idleEntry).start = .ok (.ok program, []) ∧
        selectProgram ⟨program, false, false⟩ [] = .ok (unit, []) ∧ unit.text = [] :=
  ⟨rfl, by decide, _, _, rfl, rfl, rfl⟩

end TagAsm
