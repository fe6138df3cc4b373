import TagAsm.Proofs.Linking
import TagAsm.Proofs.Ownership

/-!
# Construction and destruction

What happens in the code of a subroutine, seen as a row of events. While parameters are copied and variables get their defaults, a
value is made in each slot that the body owns, in the order of the slots, and nothing else happens (`events_builds`). On the way out
they are given up in the same order (`events_drops`). In between, a value that is given up is constructed anew in the same slot by
the next call (`Woven.restores`). Together with what is known along every path, this is how the values of a body live (`Lives`), and
all code that subroutines are given is of this kind (`Selected.codeOf`, `Phases.Proper.lives`).
-/

namespace TagAsm.Select

open Asm Abi List Preparation
open TagAsm.Flow (SubroutineId ValueId Subroutine Body)

/-! ## Events -/

/-- The event is a call that makes a value in this slot. -/
inductive MakesIn (cx : Context) (syms : SymbolTable) (slot : Slot) : Event → Prop where
  | copy {src : Slot} {rest : List Held} : MakesIn cx syms slot (.call ⟨.operation .copy src, .value slot :: .value src :: rest⟩)
  | construct {sym : String} {rest : List Held} (hsymbol : Constructor cx syms sym) :
    MakesIn cx syms slot (.call ⟨.symbol sym, .value slot :: rest⟩)

/-- The event is a call that gives up the value in this slot. -/
inductive DropsIn (slot : Slot) : Event → Prop where
  | drop {rest : List Held} : DropsIn slot (.call ⟨.operation .drop slot, .value slot :: rest⟩)

/-- Whenever a value is given up, what happens next is that another one is constructed in its place. -/
def Remade (cx : Context) (syms : SymbolTable) (events : List Event) : Prop :=
  ∀ first slot passed rest, events = first ++ .call ⟨.operation .drop slot, passed⟩ :: rest →
    ∃ sym others more, Constructor cx syms sym ∧ rest = .call ⟨.symbol sym, .value slot :: others⟩ :: more

section

variable {cx : Context} {syms : SymbolTable}

theorem remade_of_forall {events : List Event} (h : ∀ slot passed, Event.call ⟨.operation .drop slot, passed⟩ ∉ events) :
    Remade cx syms events := by
  intro first slot passed rest he
  exact absurd (he ▸ mem_append_right _ mem_cons_self) (h slot passed)

theorem Remade.append {events others : List Event} (he : Remade cx syms events)
    (ho : Remade cx syms others) : Remade cx syms (events ++ others) := by
  intro first slot passed rest hs
  rcases append_eq_append_iff.mp hs with ⟨between, rfl, hr⟩ | ⟨between, rfl, hr⟩
  · exact ho between slot passed rest hr
  · cases between with
    | nil => exact ho [] slot passed rest hr.symm
    | cons event more =>
      cases hr
      obtain ⟨sym, passed', last, hsy, rfl⟩ := he first slot passed more rfl
      exact ⟨sym, passed', last ++ others, hsy, rfl⟩

/-- Code that leaves nothing behind in registers, and in which values are remade. -/
def Restores (cx : Context) (syms : SymbolTable) (items : List Item) : Prop :=
  Remade cx syms (Preparation.blank.events items) ∧ items.foldl Preparation.step .blank = .blank

theorem Restores.append {first rest : List Item} (hf : Restores cx syms first) (hr : Restores cx syms rest) :
    Restores cx syms (first ++ rest) := by
  constructor
  · rw [events_append, hf.2]
    exact hf.1.append hr.1
  · rw [foldl_append, hf.2, hr.2]

theorem restores_call (frame : Frame) {args : List Argument} {transfer : Transfer} {callee : Callee}
    (h : transfer.Reaches args callee) (hd : ∀ slot, callee ≠ .operation .drop slot) :
    Restores cx syms (piecesCode frame [.call transfer args]) := by
  obtain ⟨he, hb⟩ := events_call frame h
  rw [piecesCode_singleton]
  refine ⟨?_, hb⟩
  rw [he]
  refine remade_of_forall fun slot passed hmem => ?_
  cases mem_singleton.mp hmem
  exact hd slot rfl

/-- A value is given up and another one is constructed in its place. -/
theorem remade_pair {slot : Slot} {sym : String} (hsy : Constructor cx syms sym) (passed others : List Held) :
    Remade cx syms [.call ⟨.operation .drop slot, passed⟩, .call ⟨.symbol sym, .value slot :: others⟩] := by
  intro first found passed' rest hs
  rcases first with _ | ⟨event, _ | ⟨event', first⟩⟩
  · cases hs
    exact ⟨sym, others, [], hsy, rfl⟩
  · cases hs
  · simp at hs

theorem restores_remake (frame : Frame) (slot : Slot) {sym : String} (hs : Constructor cx syms sym) (args : List Argument) :
    Restores cx syms (piecesCode frame [dropPiece (.value slot), .call (.direct sym) (.value slot :: args)]) := by
  obtain ⟨hd, hb⟩ := events_call frame (reaches_drop slot)
  have hr : (Transfer.direct sym).Reaches (.value slot :: args) (.symbol sym) := .direct sym
  obtain ⟨hm, hl⟩ := events_call frame hr
  rw [piecesCode_pair]
  unfold dropPiece
  constructor
  · rw [events_append, hd, hb, hm, handed_cons (.value slot) args]
    exact remade_pair hs _ _
  · rw [foldl_append, hb, hl]

variable {rt : Routine} {words : Nat}

/-- In deeds, and so in blocks, values that are given up are remade at once. -/
theorem Deed.restores {deed : List Piece} (h : Deed cx rt words syms deed) : Restores cx syms (piecesCode rt.frame deed) := by
  cases h with
  | @apply operation receiver args hd hc hr ha =>
    obtain ⟨place, slot, hrg, hv⟩ := hr
    refine restores_call _ (.operation operation hrg hv) fun other heq => ?_
    cases heq
    exact hd rfl
  | help | invoke => exact restores_call _ (.direct _) fun _ heq => by cases heq
  | native hs ha => exact restores_call _ (.native _) fun _ heq => by cases heq
  | store ho => exact ⟨remade_of_forall fun _ _ => not_mem_nil, rfl⟩
  | remake ht hs ha =>
    obtain ⟨slot, -, rfl⟩ := ht
    exact restores_remake _ slot hs _

theorem Woven.restores {items : List Item} (h : Woven cx rt words syms items) : Restores cx syms items := by
  have hj : ∀ {items : List Item}, items.foldl step .blank = .blank →
      (∀ event ∈ blank.events items, event = .joint) → Restores cx syms items := by
    intro items hb hjn
    refine ⟨remade_of_forall fun slot passed hmem => ?_, hb⟩
    cases hjn _ hmem
  induction h with
  | nil | comment => exact hj rfl (forall_mem_nil _)
  | line | block | jump | leave => exact hj rfl (forall_mem_singleton.mpr rfl)
  | deed hd => exact hd.restores
  | branch pos neg => exact hj rfl (forall_mem_pair rfl rfl)
  | append _ _ ihfirst ihrest => exact ihfirst.append ihrest

variable {slots : List Slot} {pieces : List Piece}

/-- Where values are made one after the other, nothing else happens. -/
theorem events_builds (h : Forall₂ (Builds cx syms) slots pieces) (frame : Frame) :
    Forall₂ (MakesIn cx syms) slots (blank.events (piecesCode frame pieces)) := by
  induction h with
  | nil => exact .nil
  | @cons slot piece slots pieces hbl _ ih =>
    obtain ⟨event, he, hb, hm⟩ : ∃ event, blank.events (piece.items frame) = [event] ∧
        (piece.items frame).foldl step .blank = .blank ∧ MakesIn cx syms slot event := by
      cases hbl with
      | @copy src hsr =>
        obtain ⟨he, hb⟩ := events_call frame (reaches_copy slot src)
        exact ⟨_, he, hb, .copy⟩
      | @construct sym args hs ha =>
        have hr : (Transfer.direct sym).Reaches (.value slot :: args) (.symbol sym) := .direct sym
        obtain ⟨he, hb⟩ := events_call frame hr
        exact ⟨_, he, hb, .construct hs⟩
    rw [piecesCode_cons, events_append, he, hb]
    exact .cons hm ih

/-- Where values are given up one after the other, nothing else happens. -/
theorem events_drops (h : Forall₂ (fun slot piece => piece = dropPiece (.value slot)) slots pieces) (frame : Frame) :
    Forall₂ DropsIn slots (blank.events (piecesCode frame pieces)) := by
  induction h with
  | nil => exact .nil
  | @cons slot piece slots pieces hp _ ih =>
    subst hp
    obtain ⟨he, hb⟩ := events_call frame (reaches_drop slot)
    rw [piecesCode_cons, events_append]
    unfold dropPiece
    rw [he, hb, handed_cons]
    exact .cons .drop ih

end

/-! ## Lives -/

/-- How the values of a body live in the code of a subroutine that owns these slots. -/
structure Lives (cx : Context) (syms : SymbolTable) (ph : Phases) (slots : List Slot) : Prop where
  /-- These are the slots of the parameters, the locals, and the temporaries that do not receive an address. -/
  owned : List.Forall₂ (fun val slot => ph.frame.slot? val = some slot)
    (ph.body.parameters ++ ph.body.locals ++ ph.body.temporaries.filter (· ∉ referenceValues ph.body)) slots
  nodup : (slots.map Slot.offset).Nodup
  /-- The other values have slots for addresses. -/
  pointers : ∀ val ∈ ph.body.returnValue :: (ph.body.parameters ++ ph.body.locals ++ ph.body.temporaries),
    ∃ slot, ph.frame.slot? val = some slot ∧ (slot.byReference = true ↔ val = ph.body.returnValue ∨ val ∈ referenceValues ph.body)
  /-- In front of the blocks, each slot gets its value, one after the other. -/
  made : List.Forall₂ (MakesIn cx syms) slots (Preparation.blank.events (piecesCode ph.frame ph.copies)
    ++ Preparation.blank.events (piecesCode ph.frame ph.defaults))
  /-- After the blocks, the values are given up in the same order. -/
  dropped : List.Forall₂ DropsIn slots (Preparation.blank.events (piecesCode ph.frame ph.drops))
  /-- A value that is given up in a block is made anew at once. -/
  remade : Remade cx syms (Preparation.blank.events ph.blocks)
  /-- Along every path no value is used that is not there, and none is made where there is one. The code is left with no value in
  its slots, after the label in front of the way out was passed once. Where addresses are kept, there is never a value. -/
  watched : ∀ place watch, Tracks (Watch.step (rolesOf cx syms) (localLabel ph.symbol "deinit")) ph.items
      ⟨.blank, occupied [], 0⟩ place watch →
    ∃ item next, ph.items[place]? = some item ∧ watch.step (rolesOf cx syms) (localLabel ph.symbol "deinit") item = some next ∧
      (item.goesOn = false → item.target? = none → watch.Settled) ∧
      ∀ call, watch.prepared.call? item = some call → ∀ val offset, ph.frame.slot? val = some ⟨offset, true⟩ →
        Held.value ⟨offset, false⟩ ∉ call.passed

section

variable {cx : Context} {syms later : SymbolTable} {ph : Phases} {body : Body} {val : ValueId}

/-- A value has a slot for an address if it is the return value, or if it receives one. -/
theorem Orderly.exists_slot (h : Orderly body) (words : Nat)
    (hv : val ∈ body.returnValue :: (body.parameters ++ body.locals ++ body.temporaries)) :
    ∃ slot, (withRecords (layoutOf body words).frame (layoutOf body words).records).slot? val = some slot ∧
      (slot.byReference = true ↔ val = body.returnValue ∨ val ∈ referenceValues body) := by
  obtain ⟨hrt, ho⟩ := forall₂_cons.mp (h.distinct.slots words)
  rcases mem_cons.mp hv with rfl | hv
  · exact ⟨_, hrt, iff_of_true rfl (Or.inl rfl)⟩
  · have hne : val ≠ body.returnValue := by
      rintro rfl
      exact (nodup_cons.mp h.distinct).1 hv
    have hb := (h.distinct.byReference h.references).mp (fun _ _ hr hs => And.intro hr hs) ho
    obtain ⟨slot, -, hr, hs⟩ := exists_mem_of_forall₂ hb hv
    refine ⟨slot, hs, ?_⟩
    rw [hr, decide_eq_true_iff]
    exact ⟨Or.inr, fun h => h.resolve_left hne⟩

/-- A value that is handed to a call does not lie where an address is kept. -/
theorem notMem_passed_of_within {words : Nat} {call : Call} (h : call.Within (ownedSlots body)) {off : Int}
    (hsl : (withRecords (layoutOf body words).frame (layoutOf body words).records).slot? val = some ⟨off, true⟩) :
    Held.value ⟨off, false⟩ ∉ call.passed := by
  intro hp
  rcases h _ hp with hr | ho
  · cases hr
  · have hn := nodup_offsets_bodySlots body
    have hs := inj_on_of_nodup_map hn (mem_ownedSlots.mp ho).1 (mem_bodySlots hsl) rfl
    cases hs

theorem Phases.Proper.lives (h : ph.Proper cx syms) (ho : Orderly ph.body) : Lives cx syms ph (ownedSlots ph.body) := by
  have hb := h.builds ho
  refine ⟨?_, nodup_offsets_ownedSlots ph.body, fun val hv => ho.exists_slot ph.words hv, ?_,
    events_drops (h.drops_owned ho) ph.frame, h.blocks.restores.1, fun place watch ht => ?_⟩
  · rw [← ownedValues_eq ho.distinct ho.references]
    exact ho.distinct.ownedSlots ho.references ph.words
  · rw [← take_append_drop ph.copies.length (ownedSlots ph.body)]
    exact rel_append (events_builds (forall₂_take_append _ _ _ hb) ph.frame) (events_builds (forall₂_drop_append _ _ _ hb) ph.frame)
  · obtain ⟨item, next, hi, hst, hf⟩ := h.watched ho ht
    refine ⟨item, next, hi, hst, hf.settled, fun call hc val off hs => ?_⟩
    exact notMem_passed_of_within (hf.within call hc) hs

/-! ## All subroutines -/

theorem Phases.Proper.mono (h : ph.Proper cx syms) (hl : syms.Within later) : ph.Proper cx later :=
  ⟨h.words_eq, h.copies, h.defaults, h.blocks.mono hl, h.drops, h.leave⟩

/-- These phases are the code that a subroutine was given. -/
structure Phases.CodeOf (cx : Context) (syms : SymbolTable) (id : SubroutineId) (items : List Item) (ph : Phases) :
    Prop where
  defined : ∃ sub, cx.program.subroutines[id]? = some sub ∧ sub.kind = .defined ph.body
  symbol_eq : syms.subroutine? id = some ph.symbol
  items_eq : items = ph.items
  proper : ph.Proper cx syms

theorem Phases.CodeOf.mono {id : SubroutineId} {items : List Item} (h : ph.CodeOf cx syms id items)
    (hl : syms.Within later) : ph.CodeOf cx later id items := by
  refine ⟨h.defined, ?_, h.items_eq, h.proper.mono hl⟩
  rw [SymbolTable.subroutine?, hl.subroutines]
  exact h.symbol_eq

variable {before after : Emission} {work : Work} {out : Outcome} {id : SubroutineId} {items : List Item}

theorem Handles.within (h : Handles cx before work out after) (hp : cx.Prepared) : before.kept.symbols.Within after.kept.symbols := by
  obtain ⟨kept, reports, hn, -, hk⟩ := h.keeps hp
  rw [hk]
  exact hn.within

theorem Handles.codeOf (h : Handles cx before (.subroutine id) (.emitted items) after)
    (ha : before.kept.Aligned cx) : ∃ ph : Phases, ph.CodeOf cx after.kept.symbols id items := by
  cases h with
  | @subroutine _ sub body _ _ frame kept _ hid hb hrun =>
    obtain ⟨hw, hp⟩ := subroutineCode_leaves _ _ _ _ _ _ _ (SymbolTable.Within.refl _) hrun
    obtain ⟨ph, hpr, hsy, hs, hr⟩ := hp _ rfl
    obtain ⟨rfl, -⟩ := Prod.mk.inj hr
    subst hs
    refine ⟨ph, ⟨sub, hid, hb⟩, ?_, rfl, hpr⟩
    rw [hsy]
    exact ha.subroutine?_eq hw.subroutines.symm hid

variable {diags : Diagnostics} {parts : List (Work × Outcome)} {drained last : Emission}

/-- All code that a subroutine was given has its phases. -/
theorem Selected.codeOf (h : Selected cx diags syms parts drained last) (hpr : cx.Prepared)
    (hp : (Work.subroutine id, Outcome.emitted items) ∈ parts) :
    ∃ ph : Phases, ph.CodeOf cx drained.kept.symbols id items := by
  have hall := h.reaches (fun done em => ∀ id items, (Work.subroutine id, Outcome.emitted items) ∈ done →
    ∃ ph : Phases, ph.CodeOf cx em.kept.symbols id items) hpr ?_
    (fun _ _ h => absurd h not_mem_nil)
  · exact hall.2 id items hp
  · intro done em work queue out next hk _ hw hd id items hp
    rcases mem_append.mp hp with hold | hnew
    · obtain ⟨ph, hc⟩ := hd id items hold
      exact ⟨ph, hc.mono (hw.within hpr)⟩
    · obtain ⟨rfl, rfl⟩ := Prod.mk.inj (mem_singleton.mp hnew)
      exact hw.codeOf hk.aligned

/-- The code of a subroutine that was emitted is a part of the text. -/
theorem Selected.exists_text (h : Selected cx diags syms parts drained last) (hpr : cx.Prepared)
    (hp : (work, Outcome.emitted items) ∈ parts) : ∃ first rest, last.text = first ++ items ++ rest := by
  obtain ⟨start, hs⟩ := starts_of_emitStart h.emitStart_eq
  obtain ⟨first, rest, rfl⟩ := append_of_mem hp
  refine ⟨start ++ first.flatMap (fun part => part.2.items), rest.flatMap (fun part => part.2.items), ?_⟩
  rw [hs.text_eq, (h.assembled hpr).text_eq]
  simp [Outcome.items]

theorem Context.Prepared.orderly (h : cx.Prepared) {sub : Subroutine}
    (hid : cx.program.subroutines[id]? = some sub) (hb : sub.kind = .defined body) : Orderly body := by
  obtain ⟨hs, hp⟩ := h.bodies id sub body hid hb
  refine ⟨?_, fun val hv => (mem_temporaries_of_reference hs hp hv).1⟩
  rw [Distinct, hs.values_eq]
  exact nodup_range

end

end TagAsm.Select

namespace TagAsm

open Asm Select

/-- In the code of every subroutine that is emitted, the values of its body are made and given up in balance: in front of the blocks
each value that the body owns is made once, in the order of parameters, locals and temporaries; the way out, which is taken once
along every path that ends, gives up the same slots in the same order; what blocks give up they construct anew at once; and where
addresses are kept, no value is ever made, used or given up. -/
theorem lives_selectProgram (options : Options) (colored : Bool) (source : Source.Program) (program : Flow.Program)
    (middle after : Diagnostics) (unit : AssemblyUnit) (hflow : (compileToFlow options source).start = .ok (.ok program, middle))
    (hselect : selectProgram ⟨program, options.debugInfo, colored⟩ middle = .ok (unit, after)) :
    ∃ symbols parts drained last, Selected ⟨program, options.debugInfo, colored⟩ middle symbols parts drained last ∧
      unit = last.toUnit options.debugInfo ∧ after = last.kept.diagnostics ∧
      ∀ id items, (Work.subroutine id, Outcome.emitted items) ∈ parts → ∃ (phases : Phases) (slots : List Slot) (first rest : List Item),
          phases.CodeOf ⟨program, options.debugInfo, colored⟩ drained.kept.symbols id items ∧
          unit.text = first ++ items ++ rest ∧
          Lives ⟨program, options.debugInfo, colored⟩ drained.kept.symbols phases slots := by
  obtain ⟨hrenders, -⟩ := compileToFlow_renders hflow
  have hprepared := hrenders.prepared options.debugInfo colored
  obtain ⟨symbols, parts, drained, last, hselected, rfl, rfl⟩ := selected_of_selectProgram hprepared hselect
  refine ⟨symbols, parts, drained, last, hselected, rfl, rfl, fun id items hpart => ?_⟩
  obtain ⟨phases, hcode⟩ := hselected.codeOf hprepared hpart
  obtain ⟨first, rest, htext⟩ := hselected.exists_text hprepared hpart
  obtain ⟨subroutine, hid, hbody⟩ := hcode.defined
  refine ⟨phases, ownedSlots phases.body, first, rest, hcode, ?_, hcode.proper.lives (hprepared.orderly hid hbody)⟩
  rwa [toUnit_text]

/-- A function `replace` puts a number into its place on a shelf, through the address of the place, and returns what was there. -/
def shelf : Source.Program where
  files := []
  types := ⟨[.function [] 1, .dynamic, .function [1, 1] 1]⟩
  functions := [⟨⟨"main", .unknown⟩, 0, .internal, false, .defined [] [] (.block .unknown [])⟩,
    ⟨⟨"replace", .unknown⟩, 2, .internal, false,
      .defined [⟨0, ⟨"shelf", .unknown⟩, 1⟩, ⟨1, ⟨"place", .unknown⟩, 1⟩] [⟨2, ⟨"old", .unknown⟩, 1⟩] (.block .unknown [
        .expression .unknown (.assign ⟨0, 1, .unknown⟩ (.variableRef ⟨1, 1, .unknown⟩ 2)
          (.index ⟨2, 1, .unknown⟩ (.variableRef ⟨3, 1, .unknown⟩ 0) (.variableRef ⟨4, 1, .unknown⟩ 1))),
        .expression .unknown (.assign ⟨5, 1, .unknown⟩
          (.index ⟨6, 1, .unknown⟩ (.variableRef ⟨7, 1, .unknown⟩ 0) (.variableRef ⟨8, 1, .unknown⟩ 1))
          (.literal ⟨9, 1, .unknown⟩ (.int 1))),
        .returnValue .unknown (some (.variableRef ⟨10, 1, .unknown⟩ 2))])⟩]
  classes := []
  entry := some 0

/-- In `replace`, four values live in slots of their own, and one temporary receives an address. -/
theorem lives_selectProgram_shelf : ∃ program middle unit, (compileToFlow ⟨true, true, true⟩ shelf).start = .ok (.ok program, middle) ∧
      selectProgram ⟨program, true, false⟩ middle = .ok (unit, []) ∧
      ∃ (symbols : SymbolTable) (phases : Phases) (slots : List Slot) (first rest : List Item),
        phases.CodeOf ⟨program, true, false⟩ symbols 1 phases.items ∧ unit.text = first ++ phases.items ++ rest ∧
        Lives ⟨program, true, false⟩ symbols phases slots ∧ slots.length = 4 ∧ referenceValues phases.body = [5] := by
  have hquiet : (compileToAssembly false ⟨true, true, true⟩ shelf).start.map (fun result => result.2) = .ok [] := by
    decide +kernel
  have hbodies : (compileToFlow ⟨true, true, true⟩ shelf).start.map (fun result => result.1.toOption.bind fun program =>
      program.subroutines[1]?.bind fun subroutine => subroutine.body?.map fun body =>
        (body.parameters ++ body.locals ++ body.temporaries.filter (· ∉ referenceValues body), referenceValues body))
      = .ok (some ([1, 2, 3, 4], [5])) := by
    decide +kernel
  obtain ⟨⟨outcome, after⟩, hrun, rfl⟩ := exists_of_map_eq_ok hquiet
  obtain ⟨program, middle, unit, hflow, hselect, -⟩ := selectProgram_of_compileToAssembly rfl hrun
  refine ⟨program, middle, unit, hflow, hselect, ?_⟩
  obtain ⟨symbols, parts, drained, last, hselected, rfl, hafter, hparts⟩ :=
    lives_selectProgram ⟨true, true, true⟩ false shelf program middle [] unit hflow hselect
  obtain ⟨hrenders, -⟩ := compileToFlow_renders hflow
  have hdefined : 1 ∈ program.defined := by
    simp [hrenders.mem_defined, shelf, Lower.hasBody]
  have hwork : Work.subroutine 1 ∈ allWork program drained.kept.symbols := mem_allWork.mpr (Or.inl ⟨1, rfl, Or.inl hdefined⟩)
  obtain ⟨items, hpart⟩ := hselected.exists_emitted (hrenders.prepared true false) (by rw [← hafter]; rfl) hwork
  obtain ⟨phases, slots, first, rest, hcode, htext, hlives⟩ := hparts 1 items hpart
  obtain rfl := hcode.items_eq
  obtain ⟨subroutine, hid, hbody⟩ := hcode.defined
  obtain ⟨result, hstart, hvalues⟩ := exists_of_map_eq_ok hbodies
  obtain rfl := Except.ok.inj (hflow.symm.trans hstart)
  simp only [Except.toOption, Option.bind_some, hid, Flow.Subroutine.body?, hbody, Option.map_some] at hvalues
  obtain ⟨howned, hreferences⟩ := Prod.mk.inj (Option.some.inj hvalues)
  refine ⟨drained.kept.symbols, phases, slots, first, rest, hcode, htext, hlives, ?_, hreferences⟩
  rw [← hlives.owned.length_eq, howned]
  rfl

end TagAsm
