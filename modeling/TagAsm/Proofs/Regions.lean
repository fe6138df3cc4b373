import Mathlib.Order.Bounds.Basic
import TagAsm.Proofs.ArgumentPassing
import TagAsm.Proofs.Balance

/-!
# What the bytes of a frame are for

A frame has bytes for the address of the return value, for the addresses that arrive in registers, for a record of each parameter,
for each local and temporary, and for what native calls are prepared in. `Layout.regions` lists them where the layout says that they
are. They do not overlap and fill no more than the frame, which is what the stack pointer is lowered by when the subroutine is
entered; the words for native calls are as many as the widest of them takes; and when the parameters have been copied, everything
that the body owns has its record in the frame (`LaidOut`).
-/

namespace TagAsm.Asm

/-! ## Bytes -/

/-- The bytes of a span, each by its distance from the frame pointer. -/
def Span.bytes (span : Span) : Set Int := {byte | span.offset ≤ byte ∧ byte < span.offset + span.width}

theorem Span.notMem_bytes {above below : Span} (h : below.offset + below.width ≤ above.offset) {byte : Int}
    (ha : byte ∈ above.bytes) : byte ∉ below.bytes := by
  intro hb
  have hlow := ha.1
  have hh := hb.2
  omega

theorem Span.bytes_subset {size : Int} {span : Span} (h : span.Inside size) : span.bytes ⊆ {byte | -size ≤ byte ∧ byte < 0} :=
  fun _ hb => ⟨Int.le_trans h.1 hb.1, Int.lt_of_lt_of_le hb.2 h.2⟩

end TagAsm.Asm

namespace TagAsm.Select

open Asm Abi List
open TagAsm.Flow (ValueId Subroutine Body)

/-! ## Native calls -/

section

variable {prog : Flow.Program} {body : Body} {words : Nat} {callee : Subroutine}

/-- Words for native calls can be counted if the types of the callees can be looked up. -/
theorem exists_scratchWords (ht : ∀ callee ∈ foreignCallees prog body, ∃ sig, prog.types.signature callee.ty = .ok sig) :
    ∃ words, scratchWords prog body = .ok words := by
  obtain ⟨counts, hc⟩ := exists_mapM_eq_ok (nativeWords prog) (bodyStatements body) fun stmt hst => by
    cases hcl : foreignCallee? prog stmt with
    | none => exact ⟨0, nativeWords_of_none hcl⟩
    | some callee =>
      obtain ⟨sig, hs⟩ := ht callee (mem_filterMap.mpr ⟨stmt, hst, hcl⟩)
      exact ⟨_, (nativeWords_eq_ok_iff hcl).mpr ⟨sig, hs, rfl⟩⟩
  exact ⟨_, by rw [scratchWords, hc]; rfl⟩

/-- If there are words for native calls, some native call takes that many. -/
theorem exists_takesWords (hwords : scratchWords prog body = .ok words) (hpos : 0 < words) :
    ∃ callee ∈ foreignCallees prog body, TakesWords prog callee words := by
  obtain ⟨stmt, hs, hn⟩ := (scratchWords_spec hwords).2.resolve_left (Nat.ne_of_gt hpos)
  cases hc : foreignCallee? prog stmt with
  | none =>
    rw [nativeWords_of_none hc] at hn
    exact absurd (Except.ok.inj hn) (Nat.ne_of_lt hpos)
  | some callee =>
    exact ⟨callee, mem_filterMap.mpr ⟨stmt, hs, hc⟩, (nativeWords_eq_ok_iff hc).mp hn⟩

/-- No native call takes more words than there are. -/
theorem le_of_takesWords (hwords : scratchWords prog body = .ok words) (hc : callee ∈ foreignCallees prog body)
    {width : Nat} (h : TakesWords prog callee width) : width ≤ words := by
  obtain ⟨stmt, hs, hf⟩ := mem_filterMap.mp hc
  exact nativeWords_le hwords hs ((nativeWords_eq_ok_iff hf).mpr h)

variable (hwords : scratchWords prog body = .ok words)
include hwords

/-- All native calls were counted. -/
theorem exists_takesWords_of_mem (hc : callee ∈ foreignCallees prog body) : ∃ width, TakesWords prog callee width := by
  obtain ⟨stmt, hs, hf⟩ := mem_filterMap.mp hc
  obtain ⟨count, -, hn⟩ := (scratchWords_spec hwords).1 stmt hs
  exact ⟨count, (nativeWords_eq_ok_iff hf).mp hn⟩

/-- There are words for native calls if there are native calls. -/
theorem scratchWords_pos_iff : 0 < words ↔ foreignCallees prog body ≠ [] := by
  constructor
  · intro hpos
    obtain ⟨callee, hc, -⟩ := exists_takesWords hwords hpos
    exact ne_nil_of_mem hc
  · intro hne
    obtain ⟨callee, hc⟩ := exists_mem_of_ne_nil _ hne
    obtain ⟨width, ht⟩ := exists_takesWords_of_mem hwords hc
    exact Nat.lt_of_lt_of_le ht.pos (le_of_takesWords hwords hc ht)

end

/-! ## The regions of a layout -/

/-- The bytes of a value, so many, where the layout has its slot. -/
def Layout.region? (layout : Layout) (width : Int) (val : ValueId) : Option Span :=
  (layout.frame.slot? val).map fun slot => ⟨slot.offset, width⟩

/-- All that the frame of a body has bytes for: the address of the return value, the addresses that arrive in registers, the records of
parameters, the locals, the temporaries, and the words for native calls. An address has 8 bytes, a record 24. -/
def Layout.regions (layout : Layout) (body : Body) (words : Nat) : List Span :=
  ⟨layout.returnSlot.offset, 8⟩ :: layout.incoming.map (fun slot => ⟨slot.offset, 8⟩)
    ++ layout.records.map (fun record => ⟨record.2.offset, 24⟩)
    ++ body.locals.filterMap (layout.region? 24)
    ++ body.temporaries.filterMap (fun val => layout.region? (if val ∈ referenceValues body then 8 else 24) val)
    ++ layout.scratch.toList.map (fun off => ⟨off, 8 * words⟩)

variable {layout : Layout} {vals : List ValueId} {slots : List Slot}

/-- What each value has a slot for is the bytes of its slot. -/
theorem filterMap_region? (width : ValueId → Int) (hss : Forall₂ (fun val slot => layout.frame.slot? val = some slot) vals slots)
    (hws : Forall₂ (fun val slot => slot.span.width = width val) vals slots) :
    vals.filterMap (fun val => layout.region? (width val) val) = slots.map Slot.span := by
  induction hss with
  | nil => rfl
  | @cons val slot vals slots hs _ ih =>
    obtain ⟨hw, hrs⟩ := forall₂_cons.mp hws
    have hr : layout.region? (width val) val = some slot.span := by
      rw [Layout.region?, hs, Option.map_some, ← hw]
      rfl
    simp only [filterMap_cons, hr, ih hrs, map_cons]

/-- Slots of one kind have spans of one width. -/
theorem map_span_of_byReference {byRef : Bool} (h : Forall₂ (fun _ slot => slot.byReference = byRef) vals slots) :
    slots.map Slot.span = slots.map fun slot => ⟨slot.offset, if byRef then 8 else 24⟩ := by
  induction h with
  | nil => rfl
  | cons hs _ ih => simp only [map_cons, ih, Slot.span, hs, valueSize]

section

variable {body : Body} (words : Nat)

/-- The regions are the bytes of the slots that were handed out, and of the words below them. -/
theorem regions_layoutOf (hd : Distinct body) : (layoutOf body words).regions body words =
    slotSpans body ++ (layoutOf body words).scratch.toList.map fun off => ⟨off, 8 * words⟩ := by
  have hf : ∀ {vals : List ValueId} {slots : List Slot}, Forall₂ (fun val slot => (bodyFrame body).slot? val = some slot) vals slots →
      Forall₂ (fun val slot => (layoutOf body words).frame.slot? val = some slot) vals slots :=
    fun h => h.imp fun val slot hs => (slot?_layoutOf body words val).trans hs
  have hl := filterMap_region? (fun _ => 24) (hf hd.slots_locals)
    ((byReference_newSlots (fun _ => false) (recordedFrame body) body.locals).imp fun val slot h => by simp [Slot.span, h, valueSize])
  have ht := filterMap_region? (fun val => if val ∈ referenceValues body then 8 else 24) (hf hd.slots_temporaries)
    ((byReference_newSlots (· ∈ referenceValues body) (localFrame body) body.temporaries).imp
      fun val slot h => by simp [Slot.span, h, valueSize])
  have ha : (arrivalSlots body).map Slot.span = (arrivalSlots body).map fun slot => ⟨slot.offset, 8⟩ :=
    map_span_of_byReference (byReference_newSlots (fun _ => true) Frame.empty (body.returnValue :: registerParameters body))
  have hr : (recordSlots body).map Slot.span = (recordSlots body).map fun slot => ⟨slot.offset, 24⟩ :=
    map_span_of_byReference (byReference_ownRecords (arrivalFrame body) body.parameters)
  -- the slots that were handed out, as the layout has them
  rw [arrivalSlots_eq body words, map_cons (f := fun slot : Slot => Span.mk slot.offset 8)] at ha
  rw [recordSlots, ← records_layoutOf_eq body words, map_map, map_map] at hr
  unfold Layout.regions
  rw [hl, ht, slotSpans, bodySlots, map_append, map_append, map_append, arrivalSlots_eq body words,
    ha, recordSlots, ← records_layoutOf_eq body words, map_map, hr]
  rfl

/-- The regions lie one below the other. -/
theorem stacked_regions (hd : Distinct body) :
    ∃ last ≤ (layoutOf body words).frame.size, Stacked 0 ((layoutOf body words).regions body words) last := by
  rw [regions_layoutOf words hd]
  cases hs : (layoutOf body words).scratch with
  | none =>
    refine ⟨_, size_bodyFrame_le body words, ?_⟩
    rw [Option.toList_none, map_nil, append_nil]
    exact stacked_slotSpans body
  | some scratch => exact ⟨_, Int.le_refl _, (stacked_slotSpans body).append (scratch_span hs)⟩

end

/-! ## Entering a subroutine -/

/-- On entry the frame pointer is put below the return address, and the stack pointer below the frame. -/
theorem registers_pass_entryCode (addrs : String → Int) (sym : String) (body : Body) (words : Nat) {p : Processor}
    {entry : Int} (he : p.registers .rsp = some entry) :
    (p.pass addrs (entryCode sym (layoutOf body words))).registers .rbp = some (entry - 8) ∧
      (p.pass addrs (entryCode sym (layoutOf body words))).registers .rsp = some (entry - 8 - (layoutOf body words).frame.size) := by
  -- what comes after the entry does not matter
  let ph : Phases := ⟨0, sym, body, words, .toCaller, [], [], [], [], []⟩
  have ha : Arrived ph entry p (p.pass addrs (entryCode sym (layoutOf body words))) := arrived_pass ph he
  exact ⟨ha.frame, ph.size_frame ▸ ha.stack⟩

/-- Parameters that have slots can be copied, and are used from their records then. -/
theorem run_copyCode (frame : Frame) {records : List (ValueId × Slot)} (h : frame.Covers (records.map Prod.fst)) (kept : Selection) :
    ∃ code, (copyCode frame records).run.run kept = .ok (.ok (code, withRecords frame records), kept) := by
  induction records generalizing frame with
  | nil => exact ⟨[], rfl⟩
  | cons record rest ih =>
    obtain ⟨hp, hr⟩ := forall_mem_cons.mp h
    obtain ⟨slot, hs⟩ := Option.isSome_iff_exists.mp hp
    have hsr : (valueArgument frame record.1).run.run kept = .ok (.ok (.value slot), kept) := by
      rw [valueArgument, hs]
      rfl
    obtain ⟨code, hc⟩ := ih (frame.bind record.1 record.2) (Frame.Covers.mono hr (Frame.retains_bind frame record.1 record.2))
    refine ⟨callOperation frame .copy [.value record.2, .value slot] .rsi ++ code, ?_⟩
    rw [copyCode, SelectM.run_bind_of_eq_ok hsr, SelectM.run_bind_of_eq_ok hc]
    rfl

/-! ## Frames of lowered bodies -/

/-- What holds of the layout of a body with `words` words for native calls. -/
structure LaidOut (prog : Flow.Program) (body : Body) (words : Nat) (layout : Layout) : Prop where
  /-- There are words for native calls if there are native calls, -/
  scratch : layout.scratch.isSome = true ↔ foreignCallees prog body ≠ []
  /-- and then as many as the widest one takes. -/
  widest : foreignCallees prog body ≠ [] → IsGreatest {width | ∃ callee ∈ foreignCallees prog body, TakesWords prog callee width} words
  returnSlot : layout.frame.slot? body.returnValue = some layout.returnSlot
  incoming : List.Forall₂ (fun param slot => layout.frame.slot? param = some slot) (body.parameters.take 5) layout.incoming
  records : layout.records.map Prod.fst = body.parameters
  slots : ∀ val ∈ body.locals ++ body.temporaries, (layout.frame.slot? val).isSome = true
  apart : (layout.regions body words).Pairwise fun region other => ∀ byte ∈ region.bytes, byte ∉ other.bytes
  inside : ∀ region ∈ layout.regions body words, region.bytes ⊆ {byte | -layout.frame.size ≤ byte ∧ byte < 0}
  aligned : 16 ∣ layout.frame.size
  /-- Wherever the stack pointer is on entry, the frame is what lies between it and the frame pointer afterwards. -/
  reserved : ∀ (addrs : String → Int) (sym : String) (p : Processor) (entry : Int), p.registers .rsp = some entry →
    (p.pass addrs (entryCode sym layout)).registers .rbp = some (entry - 8) ∧
      (p.pass addrs (entryCode sym layout)).registers .rsp = some (entry - 8 - layout.frame.size)
  /-- Parameters that arrive on the stack lie next to each other, -/
  stacked : ∀ (place : Nat) (param : ValueId), 5 ≤ place → body.parameters[place]? = some param →
    layout.frame.slot? param = some ⟨16 + 8 * ((place : Int) - 5), true⟩
  /-- each in a slot of its own. -/
  stacked_nodup : ((body.parameters.drop 5).map layout.frame.slot?).Nodup
  /-- The parameters can be copied, and then all that the body owns lies in the frame. -/
  copied : ∀ kept, ∃ code frame, (copyCode layout.frame layout.records).run.run kept = .ok (.ok (code, frame), kept) ∧
    ∀ val ∈ body.parameters ++ body.locals ++ body.temporaries, val ∉ referenceValues body →
      ∃ off < 0, frame.slot? val = some ⟨off, false⟩

section

variable {body : Body} (words : Nat)

/-- The parameters beyond the fifth lie above the return address, 8 bytes apart. -/
theorem Distinct.slot?_stacked (hd : Distinct body) {place : Nat} {param : ValueId} (hp : 5 ≤ place)
    (h : body.parameters[place]? = some param) :
    (layoutOf body words).frame.slot? param = some ⟨16 + 8 * ((place : Int) - 5), true⟩ := by
  have hc : Register.arguments.length = 6 := rfl
  rw [hd.slot?_parameter words h, arrivalSlot, if_neg (by omega), hc]
  congr 2
  omega

theorem Distinct.nodup_stacked (hd : Distinct body) : ((body.parameters.drop 5).map (layoutOf body words).frame.slot?).Nodup := by
  have hsl : (body.parameters.drop 5).map (layoutOf body words).frame.slot? =
      (range (body.parameters.drop 5).length).map fun place => some ⟨16 + 8 * (place : Int), true⟩ := by
    refine ext_getElem (by simp) fun place hp _ => ?_
    have hlt : 5 + place < body.parameters.length := by simpa [Nat.lt_sub_iff_add_lt'] using hp
    rw [getElem_map, getElem_map, getElem_range, getElem_drop,
      hd.slot?_stacked words (Nat.le_add_right 5 place) (getElem?_eq_getElem hlt)]
    congr 2
    omega
  rw [hsl]
  refine nodup_range.map fun place other hs => ?_
  have ho := congrArg Slot.offset (Option.some.inj hs)
  dsimp only at ho
  omega

/-- What the body owns has a record in the frame once the parameters are copied. -/
theorem Orderly.slot?_owned (h : Orderly body) {val : ValueId} (hv : val ∈ ownedValues body) :
    ∃ off < 0, (withRecords (layoutOf body words).frame (layoutOf body words).records).slot? val = some ⟨off, false⟩ := by
  obtain ⟨slot, hs, hf⟩ := exists_mem_of_forall₂ (h.distinct.ownedSlots h.references words) hv
  obtain ⟨-, hi⟩ := mem_ownedSlots.mp hs
  have hin := (inside_of_slot?_withRecords hf).2
  have hw := slot.le_width_span
  refine ⟨slot.offset, ?_, ?_⟩
  · change slot.offset + slot.span.width ≤ 0 at hin
    omega
  · rw [hf, ← hi]

theorem Orderly.laidOut {prog : Flow.Program} (h : Orderly body) {words : Nat} (hwords : scratchWords prog body = .ok words) :
    LaidOut prog body words (layoutOf body words) := by
  have hpos := scratchWords_pos_iff hwords
  have hs := slot?_layoutOf body words
  have ha := arrivalSlots_eq body words
  obtain ⟨last, hl, hst⟩ := stacked_regions words h.distinct
  have hc : (layoutOf body words).frame.Covers (body.returnValue :: (body.parameters ++ body.locals ++ body.temporaries)) := by
    intro val hv
    rw [hs]
    exact covers_bodyFrame body val hv
  constructor
  case scratch =>
    rw [← hpos, scratch_layoutOf]
    by_cases hsm : 0 < words <;> simp only [hsm, if_true, if_false, Option.isSome_some, Option.isSome_none, Bool.false_eq_true]
  case widest =>
    intro hne
    refine ⟨exists_takesWords hwords (hpos.mpr hne), ?_⟩
    rintro width ⟨callee, hcl, ht⟩
    exact le_of_takesWords hwords hcl ht
  case returnSlot =>
    rw [hs, h.distinct.slot?_returnValue, ← (List.cons.inj ha).1]
  case incoming =>
    rw [← (List.cons.inj ha).2]
    exact h.distinct.slots_incoming.imp fun val slot hf => (hs val).trans hf
  case records => exact records_layoutOf body words
  case slots =>
    intro val hv
    refine hc val (mem_cons_of_mem _ ?_)
    rw [append_assoc]
    exact mem_append_right _ hv
  case apart => exact hst.pairwise.imp fun hb _ => Span.notMem_bytes hb
  case inside =>
    intro region hrg
    obtain ⟨hlow, hh⟩ := hst.bounds hrg
    exact Span.bytes_subset ⟨by omega, by omega⟩
  case aligned => exact dvd_size_layoutOf body words
  case reserved => exact fun addrs sym p entry => registers_pass_entryCode addrs sym body words
  case stacked => exact fun place param => h.distinct.slot?_stacked words
  case stacked_nodup => exact h.distinct.nodup_stacked words
  case copied =>
    intro kept
    have hp : (layoutOf body words).frame.Covers ((layoutOf body words).records.map Prod.fst) := by
      rw [records_layoutOf]
      exact fun val hv => hc val (by simp [hv])
    obtain ⟨code, hcd⟩ := run_copyCode _ hp kept
    refine ⟨code, _, hcd, fun val hv hr => h.slot?_owned words ?_⟩
    exact mem_filter.mpr ⟨hv, by simpa using hr⟩

end

end TagAsm.Select

namespace TagAsm

open Asm Select

/-- The frame of every body that lowering makes, also of one with merged blocks. It can be laid out if the types of the native
subroutines that the body calls can be looked up. Then its regions do not overlap and lie in the frame, which is a multiple of 16
bytes and what the stack pointer is lowered by; parameters beyond the fifth are found above the return address; and everything that
the body owns has a record in the frame once the parameters are copied. -/
theorem laidOut_lowerProgram (source : Source.Program) (diagnostics after : Diagnostics) (lowered program : Flow.Program)
    (hlower : Lower.lowerProgram source diagnostics = .ok (lowered, after)) (hprogram : program = lowered ∨ lowered.merge = .ok program)
    (id : Flow.SubroutineId) (subroutine : Flow.Subroutine) (body : Flow.Body) (hid : program.subroutines[id]? = some subroutine)
    (hbody : subroutine.kind = .defined body) :
    ((∃ words, scratchWords program body = .ok words) ↔
      ∀ callee ∈ foreignCallees program body, ∃ signature, program.types.signature callee.ty = .ok signature) ∧
    ∀ words, scratchWords program body = .ok words → LaidOut program body words (layoutOf body words) := by
  have hrenders := Lower.renders_of_lowerProgram hlower hprogram
  have horderly : Orderly body := (hrenders.prepared false false).orderly hid hbody
  refine ⟨⟨?_, exists_scratchWords⟩, fun words hwords => horderly.laidOut hwords⟩
  rintro ⟨words, hwords⟩ callee hcallee
  obtain ⟨width, signature, hsignature, -⟩ := exists_takesWords_of_mem hwords hcallee
  exact ⟨signature, hsignature⟩

/-- A function `note` with seven parameters puts a number into its place on a shelf, and tells a native function about it, which has
three parameters. -/
def ledger : Source.Program where
  files := []
  types := ⟨[.function [] 1, .dynamic, .function [1, 1, 1, 1, 1, 1, 1] 1, .primitive .int, .function [3, 3, 3] 3]⟩
  functions := [⟨⟨"record", .unknown⟩, 4, .foreign, false, .imported "c" none⟩, ⟨⟨"note", .unknown⟩, 2, .internal, false,
      .defined [⟨0, ⟨"shelf", .unknown⟩, 1⟩, ⟨1, ⟨"place", .unknown⟩, 1⟩, ⟨2, ⟨"a", .unknown⟩, 1⟩, ⟨3, ⟨"b", .unknown⟩, 1⟩,
          ⟨4, ⟨"c", .unknown⟩, 1⟩, ⟨5, ⟨"d", .unknown⟩, 1⟩, ⟨6, ⟨"e", .unknown⟩, 1⟩]
        [⟨7, ⟨"told", .unknown⟩, 3⟩] (.block .unknown [
        .expression .unknown (.assign ⟨0, 1, .unknown⟩
          (.index ⟨1, 1, .unknown⟩ (.variableRef ⟨2, 1, .unknown⟩ 0) (.variableRef ⟨3, 1, .unknown⟩ 1))
          (.variableRef ⟨4, 1, .unknown⟩ 6)),
        .expression .unknown (.assign ⟨5, 3, .unknown⟩ (.variableRef ⟨6, 3, .unknown⟩ 7)
          (.call ⟨7, 3, .unknown⟩ (.functionRef ⟨8, 4, .unknown⟩ 0)
            [.variableRef ⟨9, 1, .unknown⟩ 2, .variableRef ⟨10, 1, .unknown⟩ 3, .variableRef ⟨11, 1, .unknown⟩ 6]))])⟩]
  classes := []
  entry := none

/-- In `note`, five addresses arrive in registers and two on the stack, one temporary receives an address, and there are three words for
the native call. -/
theorem laidOut_lowerProgram_ledger : ∃ lowered after subroutine body, Lower.lowerProgram ledger [] = .ok (lowered, after) ∧
      lowered.subroutines[1]? = some subroutine ∧ subroutine.kind = .defined body ∧ body.parameters.length = 7 ∧
      referenceValues body = [9] ∧ scratchWords lowered body = .ok 3 ∧ LaidOut lowered body 3 (layoutOf body 3) := by
  have hview : (Lower.lowerProgram ledger []).map (fun result => result.1.subroutines[1]?.bind fun subroutine =>
      subroutine.body?.map fun body => (body.parameters.length, referenceValues body, scratchWords result.1 body)) =
      .ok (some (7, [9], .ok 3)) := by
    decide +kernel
  obtain ⟨⟨lowered, after⟩, hlower, hseen⟩ := exists_of_map_eq_ok hview
  obtain ⟨subroutine, hid, hseen⟩ := Option.bind_eq_some_iff.mp hseen
  obtain ⟨body, hbody, hseen⟩ := Option.map_eq_some_iff.mp hseen
  obtain ⟨hlength, hseen⟩ := Prod.mk.inj hseen
  obtain ⟨hreferences, hwords⟩ := Prod.mk.inj hseen
  have hkind : subroutine.kind = .defined body := by
    cases hkind : subroutine.kind <;> simp_all [Flow.Subroutine.body?]
  exact ⟨lowered, after, subroutine, body, hlower, hid, hkind, hlength, hreferences, hwords,
    (laidOut_lowerProgram ledger [] after lowered lowered hlower (Or.inl rfl) 1 subroutine body hid hkind).2 3 hwords⟩

end TagAsm
