import TagAsm.Proofs.WellFormed

/-!
# Every value has its slot

The return value, the parameters, the locals and the temporaries get a slot each, and these are all values that a body has. A
temporary to which some statement gives an address has a slot for the address; no parameter is such a temporary, so that does
not change when the parameters are copied. And where a native subroutine is called, words are set aside for it.
-/

namespace TagAsm.Asm.Frame

open TagAsm.Flow (ValueId)

/-! ## Slots -/

section

variable (frame : Frame) (val other : ValueId)

theorem slot?_bind (slot : Slot) : (frame.bind val slot).slot? other = if other = val then some slot else frame.slot? other := by
  unfold slot? bind
  rw [List.lookup_cons]
  by_cases h : other = val
  · simp [h]
  · rw [if_neg h, beq_false_of_ne h]

theorem slot?_allocate (byRef : Bool) : (frame.allocate val byRef).slot? other =
      if other = val then some (frame.nextSlot byRef) else frame.slot? other :=
  slot?_bind _ val other _

end

/-- All these values have slots. -/
def Covers (frame : Frame) (vals : List ValueId) : Prop := ∀ value ∈ vals, (frame.slot? value).isSome = true

/-- What has a slot keeps one. -/
def Retains (before after : Frame) : Prop := ∀ value, (before.slot? value).isSome = true → (after.slot? value).isSome = true

theorem Retains.trans {a b c : Frame} (hab : Retains a b) (hbc : Retains b c) : Retains a c := fun val h => hbc val (hab val h)

theorem Covers.mono {before after : Frame} {vals : List ValueId} (h : before.Covers vals) (hr : Retains before after) :
    after.Covers vals :=
  fun val hv => hr val (h val hv)

variable (frame : Frame) (val : ValueId) (slot : Slot)

theorem retains_bind : Retains frame (frame.bind val slot) := by
  intro other h
  rw [slot?_bind]
  split
  · rfl
  · exact h

theorem isSome_slot?_bind : ((frame.bind val slot).slot? val).isSome = true := by
  simp [slot?_bind]

end TagAsm.Asm.Frame

namespace TagAsm.Select

open Asm Abi List Frame.Retains
open TagAsm.Flow (ValueId BlockId Body)

/-! ## The slots of a layout -/

section

variable (frame : Frame) (params : List ValueId)

theorem incomingSlots_covers : (incomingSlots frame params).2.Covers params ∧ frame.Retains (incomingSlots frame params).2 := by
  induction params generalizing frame with
  | nil => exact ⟨forall_mem_nil _, fun _ h => h⟩
  | cons param rest ih =>
    obtain ⟨hc, hr⟩ := ih (frame.allocate param true)
    refine ⟨forall_mem_cons.mpr ⟨?_, hc⟩, trans (Frame.retains_bind _ _ _) hr⟩
    exact hr param (Frame.isSome_slot?_bind _ _ _)

theorem bindStackParameters_covers :
    (bindStackParameters frame params).Covers params ∧ frame.Retains (bindStackParameters frame params) := by
  unfold bindStackParameters
  -- the places count on, so the first one is left open
  generalize 0 = place
  induction params generalizing frame place with
  | nil => exact ⟨forall_mem_nil _, fun _ h => h⟩
  | cons param rest ih =>
    obtain ⟨hc, hr⟩ := ih (frame.bind param ⟨16 + 8 * (place : Nat), true⟩) (place + 1)
    refine ⟨forall_mem_cons.mpr ⟨?_, hc⟩, trans (Frame.retains_bind _ _ _) hr⟩
    exact hr param (Frame.isSome_slot?_bind _ _ _)

/-- The records of parameters lie in bytes set aside; no slot changes. -/
theorem slots_ownRecords : (ownRecords frame params).2.slots = frame.slots ∧ (ownRecords frame params).1.map Prod.fst = params := by
  induction params generalizing frame with
  | nil => exact ⟨rfl, rfl⟩
  | cons param rest ih =>
    obtain ⟨hs, hk⟩ := ih (frame.reserve inlineSlotSize)
    exact ⟨hs, congrArg (param :: ·) hk⟩

end

variable (byRef : ValueId → Bool) (frame : Frame)

theorem retains_allocateAll (vals : List ValueId) : frame.Retains (allocateAll byRef frame vals) := by
  induction vals generalizing frame with
  | nil => exact fun _ h => h
  | cons val rest ih =>
    have hf : frame.Retains (frame.allocate val (byRef val)) := Frame.retains_bind _ _ _
    exact hf.trans (ih (frame.allocate val (byRef val)))

variable {val : ValueId}

/-- A value for which a slot is allocated has one of the kind that was asked for. -/
theorem slot?_allocateAll {vals : List ValueId} (h : val ∈ vals ∨ ∃ off, frame.slot? val = some ⟨off, byRef val⟩) :
    ∃ off, (allocateAll byRef frame vals).slot? val = some ⟨off, byRef val⟩ := by
  induction vals generalizing frame with
  | nil =>
    rcases h with h | h
    · exact absurd h not_mem_nil
    · exact h
  | cons first rest ih =>
    refine ih (frame.allocate first (byRef first)) ?_
    by_cases hf : val = first
    · subst hf
      exact Or.inr ⟨_, by rw [Frame.slot?_allocate, if_pos rfl]; rfl⟩
    · rcases h with h | ⟨off, h⟩
      · exact Or.inl ((mem_cons.mp h).resolve_left hf)
      · exact Or.inr ⟨off, by rw [Frame.slot?_allocate, if_neg hf, h]⟩

/-- The frame of a body before words are set aside for native calls. -/
def bodyFrame (body : Body) : Frame :=
  let first := Frame.empty.allocate body.returnValue true
  let addressed := bindStackParameters (incomingSlots first (registerParameters body)).2 (stackParameters body)
  let owned := (ownRecords addressed body.parameters).2
  allocateAll (· ∈ referenceValues body) (allocateAll (fun _ => false) owned body.locals) body.temporaries

theorem slots_layoutOf (body : Body) (words : Nat) : (layoutOf body words).frame.slots = (bodyFrame body).slots := by
  unfold layoutOf
  by_cases h : 0 < words
  · simp only [h, if_true]
    rfl
  · simp only [h, if_false]
    rfl

theorem slot?_layoutOf (body : Body) (words : Nat) (val : ValueId) :
    (layoutOf body words).frame.slot? val = (bodyFrame body).slot? val := by
  rw [Frame.slot?, slots_layoutOf, Frame.slot?]

/-- The values that a body lists have slots. -/
theorem covers_bodyFrame (body : Body) :
    (bodyFrame body).Covers (body.returnValue :: (body.parameters ++ body.locals ++ body.temporaries)) := by
  unfold bodyFrame
  extract_lets first addressed owned
  obtain ⟨hr, hf⟩ := incomingSlots_covers first (registerParameters body)
  obtain ⟨hst, hi⟩ := bindStackParameters_covers (incomingSlots first (registerParameters body)).2 (stackParameters body)
  have ho : addressed.Retains owned := by
    intro val h
    rwa [Frame.slot?, (slots_ownRecords addressed body.parameters).1]
  have hlc := retains_allocateAll (fun _ => false) owned body.locals
  have ht := retains_allocateAll (· ∈ referenceValues body) (allocateAll (fun _ => false) owned body.locals) body.temporaries
  have hl := trans ho (trans hlc ht)
  have hrt : (addressed.slot? body.returnValue).isSome = true := hi _ (hf _ (Frame.isSome_slot?_bind _ _ _))
  have hp : addressed.Covers body.parameters := by
    intro val hv
    rw [← take_append_drop (Register.arguments.length - 1) body.parameters] at hv
    rcases mem_append.mp hv with hv | hv
    · exact hi val (hr val hv)
    · exact hst val hv
  refine forall_mem_cons.mpr ⟨hl _ hrt, forall_mem_append.mpr ⟨forall_mem_append.mpr ⟨?_, ?_⟩, ?_⟩⟩
  · exact hp.mono hl
  · intro val hv
    obtain ⟨off, hs⟩ := slot?_allocateAll (fun _ => false) owned (Or.inl hv)
    exact ht val (by rw [hs]; rfl)
  · intro val hv
    obtain ⟨off, hs⟩ := slot?_allocateAll (· ∈ referenceValues body) (allocateAll (fun _ => false) owned body.locals) (Or.inl hv)
    rw [hs]
    rfl

/-! ## The slots once the parameters are copied -/

/-- The frame in which copied parameters are used. -/
def withRecords (frame : Frame) (records : List (ValueId × Slot)) : Frame :=
  records.foldl (fun frame record => frame.bind record.1 record.2) frame

theorem retains_withRecords (records : List (ValueId × Slot)) : frame.Retains (withRecords frame records) := by
  induction records generalizing frame with
  | nil => exact fun _ h => h
  | cons record rest ih => exact trans (Frame.retains_bind _ _ _) (ih _)

theorem slot?_withRecords {frame : Frame} {records : List (ValueId × Slot)} (h : val ∉ records.map Prod.fst) :
    (withRecords frame records).slot? val = frame.slot? val := by
  induction records generalizing frame with
  | nil => rfl
  | cons record rest ih =>
    rw [map_cons, mem_cons, not_or] at h
    refine (ih h.2).trans ?_
    rw [Frame.slot?_bind, if_neg h.1]

/-! ## What statements find -/

theorem records_layoutOf (body : Body) (words : Nat) : (layoutOf body words).records.map Prod.fst = body.parameters := by
  unfold layoutOf
  by_cases h : 0 < words
  · simp only [h, if_true]
    exact (slots_ownRecords _ _).2
  · simp only [h, if_false]
    exact (slots_ownRecords _ _).2

/-- What the statements of a body need to find in a frame: every value has a slot, and a value that receives an address has one
for addresses. -/
structure FrameReady (body : Body) (frame : Frame) : Prop where
  slots : ∀ val, val < body.values.length → (frame.slot? val).isSome = true
  references : ∀ val ∈ referenceValues body, ∃ offset, frame.slot? val = some ⟨offset, true⟩

variable {stmt : Flow.Statement}

theorem mem_bodyStatements {body : Body} : stmt ∈ bodyStatements body ↔
      ∃ (id : BlockId) (block : Flow.Block), body.blocks[id]? = some block ∧ stmt ∈ block.statements := by
  unfold bodyStatements
  rw [mem_flatMap]
  constructor
  · rintro ⟨block, hb, hs⟩
    obtain ⟨id, hid⟩ := getElem?_of_mem hb
    exact ⟨id, block, hid, hs⟩
  · rintro ⟨id, block, hid, hs⟩
    exact ⟨block, mem_of_getElem? hid, hs⟩

/-- The value that receives an address is mentioned. -/
theorem mem_values_of_referenceResult? (h : referenceResult? stmt = some val) : val ∈ stmt.values := by
  obtain ⟨act, loc⟩ := stmt
  cases act with
  | operator kind res args => cases kind <;> simp_all [referenceResult?, Flow.Statement.values]
  | memberRef res obj name => simp_all [referenceResult?, Flow.Statement.values]
  | _ => simp [referenceResult?] at h

variable {pool : Table Flow.Literal} {body : Body}

/-- A value that receives an address is a temporary, and no parameter. -/
theorem mem_temporaries_of_reference (hsn : body.Sound pool) (hpl : body.Placed) (h : val ∈ referenceValues body) :
    val ∈ body.temporaries ∧ val ∉ body.parameters := by
  obtain ⟨stmt, hst, hv⟩ := mem_filterMap.mp h
  obtain ⟨id, block, hb, hs⟩ := mem_bodyStatements.mp hst
  have hlt := (hsn.statements id block hb stmt hs).values_lt val (mem_values_of_referenceResult? hv)
  have hge := (hpl id block hb stmt hs).reference_ge val hv
  have ht : val ∈ body.temporaries := hsn.mem_temporaries_iff.mpr ⟨hge, hlt⟩
  have hn : (body.returnValue :: (body.parameters ++ body.locals ++ body.temporaries)).Nodup := by
    rw [hsn.values_eq]
    exact nodup_range
  rw [nodup_cons, nodup_append'] at hn
  exact ⟨ht, fun hp => hn.2.2.2 (mem_append_left _ hp) ht⟩

/-- Once the parameters are copied, the frame of a sound body has what its statements need. -/
theorem frameReady_layoutOf (hs : body.Sound pool) (hpl : body.Placed) (words : Nat) :
    FrameReady body (withRecords (layoutOf body words).frame (layoutOf body words).records) := by
  constructor
  · intro val hlt
    refine retains_withRecords _ _ val ?_
    rw [slot?_layoutOf]
    refine covers_bodyFrame body val ?_
    rw [hs.values_eq]
    exact mem_range.mpr hlt
  · intro val hv
    obtain ⟨ht, hp⟩ := mem_temporaries_of_reference hs hpl hv
    rw [slot?_withRecords (records_layoutOf body words ▸ hp), slot?_layoutOf]
    unfold bodyFrame
    extract_lets first addressed owned
    obtain ⟨off, hsl⟩ := slot?_allocateAll (· ∈ referenceValues body) (allocateAll (fun _ => false) owned body.locals) (Or.inl ht)
    exact ⟨off, by rw [hsl, decide_eq_true hv]⟩

/-! ## Words for native calls -/

/-- The native subroutine that a statement calls. -/
def foreignCallee? (prog : Flow.Program) (stmt : Flow.Statement) : Option Flow.Subroutine :=
  match stmt.action with
  | .call _ callee _ => prog.subroutines[callee]?.filter Flow.Subroutine.isForeign
  | _ => none

/-- The native subroutines that a body calls. -/
def foreignCallees (prog : Flow.Program) (body : Body) : List Flow.Subroutine :=
  (bodyStatements body).filterMap (foreignCallee? prog)

/-- A call of the native subroutine takes this many words: one for each parameter, and at least one. -/
def TakesWords (prog : Flow.Program) (callee : Flow.Subroutine) (width : Nat) : Prop :=
  ∃ sig, prog.types.signature callee.ty = .ok sig ∧ width = max (sig.elim 0 fun found => found.1.length) 1

variable {prog : Flow.Program} {words : Nat} {callee : Flow.Subroutine}

theorem foreignCallee?_of_call {res : ValueId} {id : Flow.SubroutineId} {args : List ValueId}
    (ha : stmt.action = .call res id args) (hc : prog.subroutines[id]? = some callee)
    (hf : callee.isForeign = true) : foreignCallee? prog stmt = some callee := by
  simp [foreignCallee?, ha, hc, hf]

theorem nativeWords_of_none (h : foreignCallee? prog stmt = none) : nativeWords prog stmt = .ok 0 := by
  cases ha : stmt.action with
  | call res callee args =>
    simp only [foreignCallee?, ha] at h
    simp only [nativeWords, ha]
    cases hf : prog.subroutines[callee]? with
    | none => rfl
    | some sub =>
      rw [hf, Option.filter_eq_none_iff] at h
      dsimp only
      rw [if_neg (h sub rfl)]
      rfl
  | _ => simp only [nativeWords, ha, pure, Except.pure]

theorem nativeWords_eq_ok_iff (h : foreignCallee? prog stmt = some callee) :
    nativeWords prog stmt = .ok words ↔ TakesWords prog callee words := by
  cases ha : stmt.action with
  | call res id args =>
    simp only [foreignCallee?, ha] at h
    obtain ⟨hfn, hf⟩ := Option.filter_eq_some_iff.mp h
    simp only [nativeWords, ha, hfn, hf, if_true, TakesWords]
    cases prog.types.signature callee.ty with
    | error fault => simp [bind, Except.bind]
    | ok sig => cases sig <;> simp [bind, Except.bind, pure, Except.pure, eq_comm]
  | _ =>
    simp only [foreignCallee?, ha] at h
    cases h

theorem TakesWords.pos (h : TakesWords prog callee words) : 0 < words := by
  obtain ⟨sig, -, rfl⟩ := h
  exact Nat.lt_of_lt_of_le Nat.one_pos (Nat.le_max_right _ _)

variable (hw : scratchWords prog body = .ok words)
include hw

/-- No statement of a body needs more words than are set aside, and some statement needs as many. -/
theorem scratchWords_spec : (∀ stmt ∈ bodyStatements body, ∃ n ≤ words, nativeWords prog stmt = .ok n) ∧
    (words = 0 ∨ ∃ stmt ∈ bodyStatements body, nativeWords prog stmt = .ok words) := by
  obtain ⟨counts, hcs, hr⟩ := of_bind_eq_ok hw
  cases hr
  have hf := (mapM_eq_ok_iff_forall₂ _ _ _).mp hcs
  obtain ⟨hmem, hle⟩ := max?_eq_some_iff.mp (max?_cons' : (0 :: counts).max? = _)
  refine ⟨fun stmt hs => ?_, (mem_cons.mp hmem).imp_right fun hm => exists_mem_of_forall₂ hf.flip hm⟩
  obtain ⟨n, hn, he⟩ := exists_mem_of_forall₂ hf hs
  exact ⟨n, hle n (mem_cons_of_mem _ hn), he⟩

/-- Where a body calls a native subroutine, words are set aside. -/
theorem isSome_scratch (hs : stmt ∈ bodyStatements body) (hc : foreignCallee? prog stmt = some callee) :
    (layoutOf body words).scratch.isSome = true := by
  obtain ⟨n, hle, hn⟩ := (scratchWords_spec hw).1 stmt hs
  have hpos : 0 < words := Nat.lt_of_lt_of_le ((nativeWords_eq_ok_iff hc).mp hn).pos hle
  unfold layoutOf
  simp only [hpos, if_true]
  rfl

end TagAsm.Select
