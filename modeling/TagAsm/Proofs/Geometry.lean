import Mathlib.Data.List.Pairwise
import TagAsm.Proofs.Framing

/-!
# Where the slots of a frame lie

Bytes of a frame are set aside one below the other, so the slots of a layout do not overlap and lie inside of the frame, whose
size is a multiple of the stack's granule (`stacked_slotSpans`, `dvd_size_layoutOf`). The only slots outside are those of the
parameters that arrive on the stack, and they are given up once the parameters are copied (`inside_of_slot?_withRecords`). Where
the values of a body are all different, each has the slot that was handed out for it (`Distinct.slots`), and the slots that hold
values rather than addresses are those of the values that the body owns (`Distinct.ownedSlots`).
-/

namespace TagAsm.Asm

open Abi List
open TagAsm.Flow (ValueId)

/-! ## Spans -/

/-- A row of bytes: `width` of them, the first one at this distance from the frame pointer. -/
structure Span where
  offset : Int
  width : Int
  deriving DecidableEq, Repr

/-- The bytes of a slot that are used: an address, or a value record. -/
def Slot.span (slot : Slot) : Span := ⟨slot.offset, if slot.byReference then 8 else valueSize⟩

/-- A slot has a word at least. -/
theorem Slot.le_width_span (slot : Slot) : 8 ≤ slot.span.width := by
  unfold span
  split
  · exact Int.le_refl _
  · exact (by decide : (8 : Int) ≤ valueSize)

/-- The span lies in a frame of `size` bytes. -/
def Span.Inside (size : Int) (span : Span) : Prop := -size ≤ span.offset ∧ span.offset + span.width ≤ 0

/-- The spans lie one below the other: the first one below `size` bytes, and with the last one `last` bytes are in use. -/
inductive Stacked : Int → List Span → Int → Prop where
  | nil (size : Int) : Stacked size [] size
  | cons {size last lower : Int} {span : Span} {rest : List Span} (hwidth : 0 < span.width)
    (habove : span.offset + span.width ≤ -size) (hlower : span.offset = -lower) (hrest : Stacked lower rest last) :
    Stacked size (span :: rest) last

namespace Stacked

variable {size mid last : Int} {spans others : List Span}

theorem append (h : Stacked size spans mid) (ho : Stacked mid others last) : Stacked size (spans ++ others) last := by
  induction h with
  | nil => exact ho
  | cons hw ha hl _ ih => exact .cons hw ha hl (ih ho)

variable (h : Stacked size spans last)
include h

theorem le : size ≤ last := by
  induction h with
  | nil => exact Int.le_refl _
  | cons hw ha hl _ ih => omega

/-- Each span lies between what was in use before and what is in use in the end. -/
theorem bounds {span : Span} (hs : span ∈ spans) : -last ≤ span.offset ∧ span.offset + span.width ≤ -size := by
  induction h with
  | nil => exact absurd hs not_mem_nil
  | cons hw ha hl hrs ih =>
    have hle := hrs.le
    rcases mem_cons.mp hs with rfl | hs
    · exact ⟨by omega, ha⟩
    · obtain ⟨hlow, hh⟩ := ih hs
      exact ⟨hlow, by omega⟩

/-- Spans that lie one below the other do not overlap. -/
theorem pairwise : spans.Pairwise fun above below => below.offset + below.width ≤ above.offset := by
  induction h with
  | nil => exact Pairwise.nil
  | cons hw ha hl hrs ih =>
    refine pairwise_cons.mpr ⟨fun below hb => ?_, ih⟩
    have hh := (hrs.bounds hb).2
    omega

theorem width_pos {span : Span} (hs : span ∈ spans) : 0 < span.width := by
  induction h with
  | nil => exact absurd hs not_mem_nil
  | cons hw _ _ _ ih =>
    rcases mem_cons.mp hs with rfl | hs
    · exact hw
    · exact ih hs

theorem apart {span other : Span} (hs : span ∈ spans) (ho : other ∈ spans) (hne : span ≠ other) :
    span.offset + span.width ≤ other.offset ∨ other.offset + other.width ≤ span.offset := by
  have hsm : Std.Symm fun a b : Span => a.offset + a.width ≤ b.offset ∨ b.offset + b.width ≤ a.offset := ⟨fun _ _ => Or.symm⟩
  exact @Pairwise.forall _ _ _ hsm (h.pairwise.imp Or.inr) _ hs _ ho hne

/-- So different spans start at different distances. -/
theorem nodup_offsets : (spans.map Span.offset).Nodup := by
  refine pairwise_map.mpr (h.pairwise.imp_of_mem fun {above below} _ hb hle => ?_)
  have hpos := h.width_pos hb
  omega

end Stacked

/-! ## Setting bytes aside -/

theorem roundUp_granule {bytes : Int} (h : 0 ≤ bytes) : bytes ≤ roundUp bytes granule ∧ granule ∣ roundUp bytes granule := by
  unfold roundUp granule
  have hq : Int.tdiv (bytes + 16 - 1) 16 = (bytes + 16 - 1) / 16 := Int.tdiv_eq_ediv_of_nonneg (by omega)
  exact ⟨by omega, Int.dvd_mul_left _ _⟩

namespace Frame

variable (frame : Frame)

theorem dvd_size_reserve {bytes : Int} (hb : 0 ≤ bytes) (h : granule ∣ frame.size) : granule ∣ (frame.reserve bytes).size :=
  Int.dvd_add h (roundUp_granule hb).2

theorem size_allocate (val : ValueId) (byRef : Bool) : (frame.allocate val byRef).size = frame.size + slotSize byRef := by
  cases byRef <;> rfl

theorem offset_nextSlot (byRef : Bool) : (frame.nextSlot byRef).offset = -(frame.size + slotSize byRef) := by
  cases byRef <;> rfl

variable (val : ValueId) (byRef : Bool)

theorem dvd_size_allocate (h : granule ∣ frame.size) : granule ∣ (frame.allocate val byRef).size := by
  refine Int.dvd_add h ?_
  cases byRef <;> decide

/-- A new slot lies below everything that is in use. -/
theorem stacked_nextSlot : Stacked frame.size [(frame.nextSlot byRef).span] (frame.allocate val byRef).size := by
  have ho := frame.offset_nextSlot byRef
  have hs := frame.size_allocate val byRef
  have hf : 0 < (frame.nextSlot byRef).span.width ∧ (frame.nextSlot byRef).span.width ≤ slotSize byRef := by
    cases byRef
    · exact ⟨(by decide : (0 : Int) < valueSize), (by decide : valueSize ≤ slotSize false)⟩
    · exact ⟨(by decide : (0 : Int) < 8), (by decide : 8 ≤ slotSize true)⟩
  refine .cons hf.1 ?_ ?_ (.nil _)
  · change (frame.nextSlot byRef).offset + _ ≤ _
    omega
  · change (frame.nextSlot byRef).offset = _
    omega

end Frame

end TagAsm.Asm

namespace TagAsm.Select

open Asm Abi List Frame
open TagAsm.Flow (ValueId Body)

/-! ## Slots for a list of values -/

/-- The slots that values get one after the other. -/
def newSlots (byRef : ValueId → Bool) : Frame → List ValueId → List Slot
  | _, [] => []
  | frame, val :: rest =>
    frame.nextSlot (byRef val) :: newSlots byRef (frame.allocate val (byRef val)) rest

variable (frame : Frame) (params : List ValueId)

/-- The addresses that arrive in registers are kept like other addresses. -/
theorem incomingSlots_eq :
    incomingSlots frame params = (newSlots (fun _ => true) frame params, allocateAll (fun _ => true) frame params) := by
  induction params generalizing frame with
  | nil => rfl
  | cons param rest ih =>
    rw [incomingSlots, ih]
    rfl

theorem stacked_newSlots (byRef : ValueId → Bool) (frame : Frame) (vals : List ValueId) :
    Stacked frame.size ((newSlots byRef frame vals).map Slot.span) (allocateAll byRef frame vals).size := by
  induction vals generalizing frame with
  | nil => exact .nil _
  | cons val rest ih => exact (frame.stacked_nextSlot val _).append (ih (frame.allocate val (byRef val)))

theorem dvd_size_allocateAll (byRef : ValueId → Bool) {frame : Frame} (vals : List ValueId) (h : granule ∣ frame.size) :
    granule ∣ (allocateAll byRef frame vals).size := by
  induction vals generalizing frame with
  | nil => exact h
  | cons val rest ih => exact ih (frame.dvd_size_allocate val _ h)

variable {vals : List ValueId} {val : ValueId}

section

variable (byRef : ValueId → Bool) (frame : Frame)

theorem slot?_allocateAll_of_notMem (h : val ∉ vals) : (allocateAll byRef frame vals).slot? val = frame.slot? val := by
  induction vals generalizing frame with
  | nil => rfl
  | cons first rest ih =>
    rw [mem_cons, not_or] at h
    refine (ih (frame.allocate first (byRef first)) h.2).trans ?_
    rw [slot?_allocate, if_neg h.1]

/-- Different values have the slots that were handed out for them. -/
theorem slots_allocateAll (h : vals.Nodup) : Forall₂ (fun val slot => (allocateAll byRef frame vals).slot? val = some slot) vals
      (newSlots byRef frame vals) := by
  induction vals generalizing frame with
  | nil => exact .nil
  | cons val rest ih =>
    obtain ⟨hnm, hrs⟩ := nodup_cons.mp h
    refine .cons ?_ (ih (frame.allocate val (byRef val)) hrs)
    refine (slot?_allocateAll_of_notMem byRef (frame.allocate val (byRef val)) hnm).trans ?_
    rw [slot?_allocate, if_pos rfl]

end

theorem stacked_ownRecords :
    Stacked frame.size ((ownRecords frame params).1.map fun record => record.2.span) (ownRecords frame params).2.size := by
  induction params generalizing frame with
  | nil => exact .nil _
  | cons param rest ih => exact (frame.stacked_nextSlot param false).append (ih (frame.reserve inlineSlotSize))

theorem dvd_size_ownRecords {frame : Frame} (h : granule ∣ frame.size) : granule ∣ (ownRecords frame params).2.size := by
  induction params generalizing frame with
  | nil => exact h
  | cons param rest ih => exact ih (frame.dvd_size_reserve (by decide) h)

/-- Records hold values. -/
theorem byReference_ownRecords : Forall₂ (fun _ slot => slot.byReference = false) params ((ownRecords frame params).1.map Prod.snd) := by
  induction params generalizing frame with
  | nil => exact .nil
  | cons param rest ih => exact .cons rfl (ih _)

/-- Gives slots to the parameters that arrive on the stack from this place on. -/
def bindStackFrom (frame : Frame) (params : List ValueId) (start : Nat) : Frame :=
  (params.zipIdx start).foldl (fun frame (parameter, place) => frame.bind parameter ⟨16 + 8 * (place : Nat), true⟩) frame

theorem bindStackFrom_cons (param : ValueId) (rest : List ValueId) (start : Nat) : bindStackFrom frame (param :: rest) start =
      bindStackFrom (frame.bind param ⟨16 + 8 * (start : Nat), true⟩) rest (start + 1) := rfl

theorem size_bindStackFrom (start : Nat) : (bindStackFrom frame params start).size = frame.size := by
  induction params generalizing frame start with
  | nil => rfl
  | cons param rest ih => exact ih _ (start + 1)

theorem slot?_bindStackFrom_of_notMem {params : List ValueId} (h : val ∉ params) (start : Nat) :
    (bindStackFrom frame params start).slot? val = frame.slot? val := by
  induction params generalizing frame start with
  | nil => rfl
  | cons param rest ih =>
    rw [mem_cons, not_or] at h
    rw [bindStackFrom_cons, ih _ h.2, slot?_bind, if_neg h.1]

variable {place : Nat} {param : ValueId}

/-- Different parameters that arrive on the stack lie next to each other, above the return address. -/
theorem slot?_bindStackFrom {params : List ValueId} (h : params.Nodup) (start : Nat) (hp : params[place]? = some param) :
    (bindStackFrom frame params start).slot? param = some ⟨16 + 8 * ((start + place : Nat) : Int), true⟩ := by
  induction params generalizing frame start place with
  | nil => simp at hp
  | cons first rest ih =>
    obtain ⟨hnm, hrs⟩ := nodup_cons.mp h
    rw [bindStackFrom_cons]
    cases place with
    | zero =>
      obtain rfl : first = param := by simpa using hp
      rw [slot?_bindStackFrom_of_notMem _ hnm, slot?_bind, if_pos rfl]
      rfl
    | succ place =>
      rw [ih _ hrs (start + 1) (by simpa using hp), Nat.add_right_comm start 1 place, Nat.add_assoc]

/-! ## The slots of a body -/

/-- The frame in which records for the parameters are set aside. -/
def arrivalFrame (body : Body) : Frame :=
  bindStackFrom (allocateAll (fun _ => true) (Frame.empty.allocate body.returnValue true) (registerParameters body))
    (stackParameters body) 0

/-- The frame in which the locals get slots. -/
def recordedFrame (body : Body) : Frame := (ownRecords (arrivalFrame body) body.parameters).2

/-- The frame in which the temporaries get slots. -/
def localFrame (body : Body) : Frame := allocateAll (fun _ => false) (recordedFrame body) body.locals

theorem bodyFrame_eq (body : Body) : bodyFrame body = allocateAll (· ∈ referenceValues body) (localFrame body) body.temporaries := by
  unfold bodyFrame localFrame recordedFrame arrivalFrame
  extract_lets first addressed owned
  have ha : addressed = bindStackFrom (allocateAll (fun _ => true) first (registerParameters body)) (stackParameters body) 0 := by
    unfold addressed
    rw [incomingSlots_eq]
    rfl
  unfold owned
  rw [ha]

/-- Where the address of the return value is kept, and those that arrive in registers. -/
def arrivalSlots (body : Body) : List Slot :=
  newSlots (fun _ => true) Frame.empty (body.returnValue :: registerParameters body)

/-- The records of the parameters. -/
def recordSlots (body : Body) : List Slot := (ownRecords (arrivalFrame body) body.parameters).1.map Prod.snd

def localSlots (body : Body) : List Slot := newSlots (fun _ => false) (recordedFrame body) body.locals

def temporarySlots (body : Body) : List Slot := newSlots (· ∈ referenceValues body) (localFrame body) body.temporaries

section

variable (body : Body) (words : Nat)

theorem arrivalSlots_eq : arrivalSlots body = (layoutOf body words).returnSlot :: (layoutOf body words).incoming := by
  have hi : (layoutOf body words).incoming = (incomingSlots (empty.allocate body.returnValue true) (registerParameters body)).1 := by
    unfold layoutOf
    split <;> rfl
  have hrt : (layoutOf body words).returnSlot = empty.nextSlot true := by
    unfold layoutOf
    split <;> rfl
  rw [hi, hrt, incomingSlots_eq]
  rfl

theorem records_layoutOf_eq : (layoutOf body words).records = (ownRecords (arrivalFrame body) body.parameters).1 := by
  have hrc : (layoutOf body words).records = (ownRecords (bindStackParameters
      (incomingSlots (empty.allocate body.returnValue true) (registerParameters body)).2 (stackParameters body))
      body.parameters).1 := by
    unfold layoutOf
    split <;> rfl
  rw [hrc, incomingSlots_eq]
  rfl

theorem frame_layoutOf :
    (layoutOf body words).frame = if 0 < words then (bodyFrame body).reserve (8 * (words : Nat)) else bodyFrame body := by
  unfold layoutOf
  split <;> rfl

theorem scratch_layoutOf : (layoutOf body words).scratch =
    if 0 < words then some (-((bodyFrame body).reserve (8 * (words : Nat))).size) else none := by
  unfold layoutOf
  split <;> rfl

end

/-! ## The slots lie one below the other -/

/-- All slots that a body has in its own frame. -/
def bodySlots (body : Body) : List Slot := arrivalSlots body ++ recordSlots body ++ localSlots body ++ temporarySlots body

/-- The bytes of all slots that a body has in its own frame. -/
def slotSpans (body : Body) : List Span := (bodySlots body).map Slot.span

theorem stacked_arrivalSlots (body : Body) : Stacked 0 ((arrivalSlots body).map Slot.span) (arrivalFrame body).size := by
  rw [arrivalFrame, size_bindStackFrom]
  exact stacked_newSlots (fun _ => true) empty (body.returnValue :: registerParameters body)

theorem stacked_slotSpans (body : Body) : Stacked 0 (slotSpans body) (bodyFrame body).size := by
  have hrc := stacked_ownRecords (arrivalFrame body) body.parameters
  have hl := stacked_newSlots (fun _ => false) (recordedFrame body) body.locals
  have ht := stacked_newSlots (· ∈ referenceValues body) (localFrame body) body.temporaries
  rw [slotSpans, bodySlots, map_append, map_append, map_append, recordSlots, map_map, bodyFrame_eq]
  exact (((stacked_arrivalSlots body).append hrc).append hl).append ht

variable {body : Body} {words : Nat}

/-- The words that native calls are prepared in lie below all slots. -/
theorem scratch_span {scratch : Int} (h : (layoutOf body words).scratch = some scratch) :
    Stacked (bodyFrame body).size [⟨scratch, 8 * (words : Int)⟩] (layoutOf body words).frame.size := by
  rw [scratch_layoutOf] at h
  rw [frame_layoutOf]
  by_cases hw : 0 < words
  · rw [if_pos hw] at h ⊢
    cases h
    have hrn : (8 * words : Int) ≤ roundUp (8 * (words : Int)) granule := (roundUp_granule (by omega)).1
    have hs : ((bodyFrame body).reserve (8 * (words : Nat))).size = (bodyFrame body).size + roundUp (8 * (words : Int)) granule := rfl
    refine .cons ?_ ?_ rfl (.nil _)
    · exact (by omega : (0 : Int) < 8 * words)
    · exact (by omega : -((bodyFrame body).reserve (8 * (words : Nat))).size + 8 * (words : Int) ≤ -(bodyFrame body).size)
  · rw [if_neg hw] at h
    cases h

section

variable (body : Body) (words : Nat)

theorem size_bodyFrame_le : (bodyFrame body).size ≤ (layoutOf body words).frame.size := by
  rw [frame_layoutOf]
  split
  · have hrn : (8 * words : Int) ≤ roundUp (8 * (words : Int)) granule := (roundUp_granule (by omega)).1
    change _ ≤ (bodyFrame body).size + roundUp (8 * (words : Int)) granule
    omega
  · exact Int.le_refl _

/-- A body needs some bytes at least: the address of its return value. -/
theorem size_layoutOf_pos : 0 < (layoutOf body words).frame.size := by
  have hs := stacked_slotSpans body
  have hf : (empty.nextSlot true).span ∈ slotSpans body := by
    simp [slotSpans, bodySlots, arrivalSlots, newSlots]
  have hlow : -(bodyFrame body).size ≤ -16 := (hs.bounds hf).1
  have hle := size_bodyFrame_le body words
  omega

theorem dvd_size_layoutOf : granule ∣ (layoutOf body words).frame.size := by
  have ha : granule ∣ (arrivalFrame body).size := by
    rw [arrivalFrame, size_bindStackFrom]
    exact dvd_size_allocateAll _ _ (empty.dvd_size_allocate _ _ (Int.dvd_zero _))
  have hb : granule ∣ (bodyFrame body).size := by
    rw [bodyFrame_eq]
    exact dvd_size_allocateAll _ _ (dvd_size_allocateAll _ _ (dvd_size_ownRecords _ ha))
  rw [frame_layoutOf]
  split
  · exact dvd_size_reserve _ (by omega) hb
  · exact hb

end

/-! ## The slots that values have -/

variable {slot : Slot}

/-- A slot comes from where slots are handed out, or it was there before. -/
theorem mem_newSlots_of_slot? (byRef : ValueId → Bool) (frame : Frame) (vals : List ValueId)
    (h : (allocateAll byRef frame vals).slot? val = some slot) :
    slot ∈ newSlots byRef frame vals ∨ frame.slot? val = some slot := by
  induction vals generalizing frame with
  | nil => exact Or.inr h
  | cons first rest ih =>
    rcases ih (frame.allocate first (byRef first)) h with hmem | hb
    · exact Or.inl (mem_cons_of_mem _ hmem)
    · rw [slot?_allocate] at hb
      split at hb
      · cases hb
        exact Or.inl mem_cons_self
      · exact Or.inr hb

variable {records : List (ValueId × Slot)}

/-- A parameter that was copied has a record. -/
theorem mem_records_of_slot? {frame : Frame} (h : (withRecords frame records).slot? val = some slot) :
    slot ∈ records.map Prod.snd ∨ val ∉ records.map Prod.fst ∧ frame.slot? val = some slot := by
  induction records generalizing frame with
  | nil => exact Or.inr ⟨not_mem_nil, h⟩
  | cons record rest ih =>
    rcases ih h with hmem | ⟨hnm, hb⟩
    · exact Or.inl (mem_cons_of_mem _ hmem)
    · rw [slot?_bind] at hb
      by_cases hs : val = record.1
      · rw [if_pos hs] at hb
        cases hb
        exact Or.inl mem_cons_self
      · rw [if_neg hs] at hb
        exact Or.inr ⟨not_mem_cons_of_ne_of_not_mem hs hnm, hb⟩

section

variable (h : (withRecords (layoutOf body words).frame (layoutOf body words).records).slot? val = some slot)
include h

/-- Once the parameters are copied, all slots are the body's own. -/
theorem mem_bodySlots : slot ∈ bodySlots body := by
  rw [bodySlots, mem_append, mem_append, mem_append, recordSlots, ← records_layoutOf_eq body words]
  rcases mem_records_of_slot? h with hrc | ⟨hnm, hb⟩
  · exact Or.inl (Or.inl (Or.inr hrc))
  · rw [records_layoutOf] at hnm
    rw [slot?_layoutOf, bodyFrame_eq] at hb
    rcases mem_newSlots_of_slot? _ _ _ hb with ht | hb
    · exact Or.inr ht
    rcases mem_newSlots_of_slot? _ _ _ hb with hl | hb
    · exact Or.inl (Or.inr hl)
    have hs : val ∉ stackParameters body := fun hmem => hnm (mem_of_mem_drop hmem)
    rw [recordedFrame, slot?, (slots_ownRecords _ _).1, ← slot?, arrivalFrame, slot?_bindStackFrom_of_notMem _ hs] at hb
    rcases mem_newSlots_of_slot? (fun _ => true) empty (body.returnValue :: registerParameters body) hb with hmem | he
    · exact Or.inl (Or.inl (Or.inl hmem))
    · cases he

/-- Once the parameters are copied, all slots lie inside of the frame. -/
theorem inside_of_slot?_withRecords : slot.span.Inside (layoutOf body words).frame.size := by
  obtain ⟨hlow, hh⟩ := (stacked_slotSpans body).bounds (mem_map_of_mem (mem_bodySlots h))
  have hle := size_bodyFrame_le body words
  exact ⟨by omega, by omega⟩

end

/-! ## Different values -/

/-- The values of a body are all different. -/
def Distinct (body : Body) : Prop := (body.returnValue :: (body.parameters ++ body.locals ++ body.temporaries)).Nodup

theorem Distinct.parts (hd : Distinct body) : body.parameters.Nodup ∧ body.locals.Nodup ∧ body.temporaries.Nodup ∧
      (∀ val ∈ body.parameters, val ≠ body.returnValue ∧ val ∉ body.locals ∧ val ∉ body.temporaries) ∧
      (∀ val ∈ body.locals, val ∉ body.temporaries) ∧
      body.returnValue ∉ body.locals ∧ body.returnValue ∉ body.temporaries := by
  unfold Distinct at hd
  rw [nodup_cons, nodup_append', nodup_append'] at hd
  obtain ⟨hrt, ⟨hp, hl, hf⟩, ht, hs⟩ := hd
  rw [mem_append, mem_append, not_or, not_or] at hrt
  refine ⟨hp, hl, ht, ?_, ?_, hrt.1.2, hrt.2⟩
  · intro val hv
    exact ⟨fun hsm => hrt.1.1 (hsm ▸ hv), hf hv, hs (mem_append_left _ hv)⟩
  · exact fun val hv => hs (mem_append_right _ hv)

/-- A value that is neither a local nor a temporary has the slot that it had when the parameters arrived. -/
theorem slot?_bodyFrame_of_notMem (hl : val ∉ body.locals) (ht : val ∉ body.temporaries) :
    (bodyFrame body).slot? val = (arrivalFrame body).slot? val := by
  rw [bodyFrame_eq, slot?_allocateAll_of_notMem _ _ ht, localFrame, slot?_allocateAll_of_notMem _ _ hl,
    recordedFrame, slot?, (slots_ownRecords _ _).1, slot?]

/-- The slot in which the address of the parameter with this number arrives. -/
def arrivalSlot (place : Nat) : Slot :=
  if place < Register.arguments.length - 1 then ⟨-16 * (place + 2 : Nat), true⟩
  else ⟨16 + 8 * (place - (Register.arguments.length - 1) : Nat), true⟩

/-- Addresses have slots of one granule each. -/
theorem getElem?_newSlots (vals : List ValueId) (h : place < vals.length) :
    (newSlots (fun _ => true) frame vals)[place]? = some ⟨-(frame.size + 16 * (place + 1 : Nat)), true⟩ := by
  induction vals generalizing frame place with
  | nil => exact absurd h (Nat.not_lt_zero _)
  | cons val rest ih =>
    cases place with
    | zero => rfl
    | succ place =>
      have hs : (frame.allocate val true).size = frame.size + 16 := rfl
      rw [newSlots, getElem?_cons_succ, ih _ (Nat.lt_of_succ_lt_succ h), hs]
      congr 2
      omega

/-- The parameters that arrive in registers have the slots that were handed out for their addresses. -/
theorem Distinct.slots_incoming (hd : Distinct body) :
    Forall₂ (fun param slot => (bodyFrame body).slot? param = some slot) (registerParameters body)
      (newSlots (fun _ => true) (empty.allocate body.returnValue true) (registerParameters body)) := by
  obtain ⟨hn, -, -, hps, -⟩ := hd.parts
  rw [← take_append_drop (Register.arguments.length - 1) body.parameters] at hn
  obtain ⟨hrg, -, ha⟩ := nodup_append'.mp hn
  refine forall₂_imp_of_mem (slots_allocateAll _ _ hrg) fun param hp slot hs => ?_
  obtain ⟨-, hl, ht⟩ := hps param (mem_of_mem_take hp)
  have hst : param ∉ stackParameters body := ha hp
  rw [slot?_bodyFrame_of_notMem hl ht, arrivalFrame, slot?_bindStackFrom_of_notMem _ hst, hs]

/-- Where a parameter is read from when it is copied. -/
theorem Distinct.slot?_parameter (hd : Distinct body) (words : Nat) (h : body.parameters[place]? = some param) :
    (layoutOf body words).frame.slot? param = some (arrivalSlot place) := by
  obtain ⟨hn, -, -, hpr, -⟩ := hd.parts
  have hs : (registerParameters body ++ stackParameters body)[place]? = some param := by
    rw [registerParameters, stackParameters, take_append_drop, h]
  have hln : (registerParameters body).length = min (Register.arguments.length - 1) body.parameters.length := length_take
  have hlt : place < body.parameters.length := (List.getElem?_eq_some_iff.mp h).1
  rw [slot?_layoutOf, arrivalSlot]
  by_cases hp : place < Register.arguments.length - 1
  · have hin : place < (registerParameters body).length := by omega
    rw [getElem?_append_left hin] at hs
    obtain ⟨slot, hsl, hf⟩ := getElem?_of_forall₂ hd.slots_incoming hs
    rw [if_pos hp, hf, ← hsl, getElem?_newSlots _ _ hin]
    have hsz : (empty.allocate body.returnValue true).size = 16 := rfl
    congr 2
    omega
  · have hout : (registerParameters body).length ≤ place := by omega
    have hfl : (registerParameters body).length = Register.arguments.length - 1 := by omega
    rw [getElem?_append_right hout, hfl] at hs
    obtain ⟨-, hl, ht⟩ := hpr param (mem_of_getElem? h)
    have hst : (stackParameters body).Nodup := hn.sublist (drop_sublist _ _)
    rw [if_neg hp, slot?_bodyFrame_of_notMem hl ht, arrivalFrame, slot?_bindStackFrom _ hst 0 hs, Nat.zero_add]

theorem slots_withRecords (h : (records.map Prod.fst).Nodup) :
    Forall₂ (fun val slot => (withRecords frame records).slot? val = some slot) (records.map Prod.fst) (records.map Prod.snd) := by
  induction records generalizing frame with
  | nil => exact .nil
  | cons record rest ih =>
    obtain ⟨hnm, hrs⟩ := nodup_cons.mp h
    refine .cons ?_ (ih (frame.bind record.1 record.2) hrs)
    have hk : (withRecords (frame.bind record.1 record.2) rest).slot? record.1 = (frame.bind record.1 record.2).slot? record.1 :=
      slot?_withRecords hnm
    refine hk.trans ?_
    rw [slot?_bind, if_pos rfl]

section

variable {body : Body} (hd : Distinct body)

include hd

/-- The return value has the first slot. -/
theorem Distinct.slot?_returnValue : (bodyFrame body).slot? body.returnValue = some (empty.nextSlot true) := by
  obtain ⟨-, -, -, hp, -, hl, ht⟩ := hd.parts
  have hv : body.returnValue ∉ body.parameters := fun hmem => (hp _ hmem).1 rfl
  have hs : body.returnValue ∉ stackParameters body := fun hmem => hv (mem_of_mem_drop hmem)
  have hrg : body.returnValue ∉ registerParameters body := fun hmem => hv (mem_of_mem_take hmem)
  rw [slot?_bodyFrame_of_notMem hl ht, arrivalFrame, slot?_bindStackFrom_of_notMem _ hs,
    slot?_allocateAll_of_notMem _ _ hrg, slot?_allocate, if_pos rfl]

theorem Distinct.slots_locals : Forall₂ (fun val slot => (bodyFrame body).slot? val = some slot) body.locals (localSlots body) := by
  obtain ⟨-, hl, -, -, ho, -⟩ := hd.parts
  refine forall₂_imp_of_mem (slots_allocateAll _ _ hl) fun val hv slot hs => ?_
  rw [bodyFrame_eq, slot?_allocateAll_of_notMem _ _ (ho val hv), localFrame, hs]

theorem Distinct.slots_temporaries :
    Forall₂ (fun val slot => (bodyFrame body).slot? val = some slot) body.temporaries (temporarySlots body) := by
  obtain ⟨-, -, ht, -⟩ := hd.parts
  rw [bodyFrame_eq]
  exact slots_allocateAll (· ∈ referenceValues body) (localFrame body) ht

end

/-- The slots that the values of a body have once its parameters are copied. -/
def valueSlots (body : Body) : List Slot :=
  Frame.empty.nextSlot true :: (recordSlots body ++ localSlots body ++ temporarySlots body)

/-- Different values have the slots that were handed out for them. -/
theorem Distinct.slots (hd : Distinct body) (words : Nat) : Forall₂
      (fun val slot => (withRecords (layoutOf body words).frame (layoutOf body words).records).slot? val = some slot)
      (body.returnValue :: (body.parameters ++ body.locals ++ body.temporaries)) (valueSlots body) := by
  obtain ⟨hp, -, -, ho, -⟩ := hd.parts
  have hk := records_layoutOf body words
  have hb : ∀ val, val ∉ body.parameters →
      (withRecords (layoutOf body words).frame (layoutOf body words).records).slot? val = (bodyFrame body).slot? val := by
    intro val hv
    rw [slot?_withRecords (hk ▸ hv), slot?_layoutOf]
  refine .cons ?_ (rel_append (rel_append ?_ ?_) ?_)
  · rw [hb _ fun hmem => (ho _ hmem).1 rfl]
    exact hd.slot?_returnValue
  · have hn : ((layoutOf body words).records.map Prod.fst).Nodup := hk ▸ hp
    have hs := slots_withRecords (layoutOf body words).frame hn
    rw [hk] at hs
    rw [recordSlots, ← records_layoutOf_eq body words]
    exact hs
  · refine forall₂_imp_of_mem hd.slots_locals fun val hv slot hs => ?_
    rw [hb _ fun hmem => (ho val hmem).2.1 hv, hs]
  · refine forall₂_imp_of_mem hd.slots_temporaries fun val hv slot hs => ?_
    rw [hb _ fun hmem => (ho val hmem).2.2 hv, hs]

/-! ## The slots of what a body owns -/

theorem byReference_newSlots (byRef : ValueId → Bool) (frame : Frame) (vals : List ValueId) :
    Forall₂ (fun val slot => slot.byReference = byRef val) vals (newSlots byRef frame vals) := by
  induction vals generalizing frame with
  | nil => exact .nil
  | cons val rest ih => exact .cons rfl (ih _)

/-- The slots of a body that hold values rather than addresses. -/
def ownedSlots (body : Body) : List Slot := (bodySlots body).filter fun slot => !slot.byReference

theorem mem_ownedSlots : slot ∈ ownedSlots body ↔ slot ∈ bodySlots body ∧ slot.byReference = false := by
  simp [ownedSlots]

/-- Where a body keeps addresses that arrive, it owns nothing. -/
theorem ownedSlots_eq (body : Body) :
    ownedSlots body = (recordSlots body ++ localSlots body ++ temporarySlots body).filter fun slot => !slot.byReference := by
  have ha : (arrivalSlots body).filter (fun slot => !slot.byReference) = [] := by
    refine filter_eq_nil_iff.mpr fun slot hs => ?_
    obtain ⟨val, -, hv⟩ := exists_mem_of_forall₂ (byReference_newSlots (fun _ => true) empty _).flip hs
    simp [hv]
  rw [ownedSlots, bodySlots, append_assoc, append_assoc, filter_append, ha, nil_append, append_assoc]

theorem nodup_offsets_bodySlots (body : Body) : ((bodySlots body).map Slot.offset).Nodup := by
  have ho := (stacked_slotSpans body).nodup_offsets
  rwa [slotSpans, map_map] at ho

theorem nodup_offsets_ownedSlots (body : Body) : ((ownedSlots body).map Slot.offset).Nodup :=
  (nodup_offsets_bodySlots body).sublist (filter_sublist.map _)

variable (hd : Distinct body) (hr : ∀ val ∈ referenceValues body, val ∈ body.temporaries)
include hd hr

/-- Where only temporaries receive addresses, parameters and locals are owned. -/
theorem ownedValues_eq : ownedValues body = body.parameters ++ body.locals ++ body.temporaries.filter (· ∉ referenceValues body) := by
  obtain ⟨-, -, -, hp, hl, -⟩ := hd.parts
  have hall : ∀ val ∈ body.parameters ++ body.locals, val ∉ referenceValues body := by
    intro val hv hrf
    rcases mem_append.mp hv with hv | hv
    · exact (hp val hv).2.2 (hr val hrf)
    · exact hl val hv (hr val hrf)
  rw [ownedValues, filter_append]
  congr 1
  exact filter_eq_self.mpr fun val hv => by simpa using hall val hv

/-- A value that is not the return value has a slot for addresses just if it receives one. -/
theorem Distinct.byReference : Forall₂ (fun val slot => slot.byReference = decide (val ∈ referenceValues body))
      (body.parameters ++ body.locals ++ body.temporaries) (recordSlots body ++ localSlots body ++ temporarySlots body) := by
  obtain ⟨-, -, -, hp, hl, -⟩ := hd.parts
  refine rel_append (rel_append ?_ ?_) (byReference_newSlots _ _ _)
  · refine forall₂_imp_of_mem (byReference_ownRecords _ _) fun val hv slot hs => ?_
    have hnot : val ∉ referenceValues body := fun hrf => (hp val hv).2.2 (hr val hrf)
    simp [hs, hnot]
  · refine forall₂_imp_of_mem (byReference_newSlots _ _ _) fun val hv slot hs => ?_
    have hnot : val ∉ referenceValues body := fun hrf => hl val hv (hr val hrf)
    simp [hs, hnot]

/-- The values that a body owns have the slots that hold values. -/
theorem Distinct.ownedSlots (words : Nat) : Forall₂
      (fun val slot => (withRecords (layoutOf body words).frame (layoutOf body words).records).slot? val = some slot)
      (ownedValues body) (ownedSlots body) := by
  have hss := (forall₂_cons.mp (hd.slots words)).2
  have hb := (hd.byReference hr).mp (fun _ _ hrf hs => And.intro hrf hs) hss
  have hf := rel_filter (p := fun val => decide (val ∉ referenceValues body)) (q := fun slot => !slot.byReference)
    (fun val slot h => by simp [h.1]) hb
  rw [ownedSlots_eq]
  exact hf.imp fun _ _ h => h.2

end TagAsm.Select
