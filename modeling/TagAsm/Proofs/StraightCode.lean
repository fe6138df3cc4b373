import TagAsm.Proofs.Machine
import TagAsm.Proofs.WellFormed

/-!
# Straight code

Instructions that go on to the next one: no label, no comment, no jump. Calls are made of them. What selection keeps beside the
code does not matter for many things that are said of the code, so they are stated of every result that a step of selection can
have (`SelectM.Yields`).
-/

namespace TagAsm.Asm

open Abi List

/-! ## All instructions of a call -/

variable {P : Instruction → Prop}

/-- What holds of every load of an argument, of every push and where the stack is reserved holds of all that brings arguments into
place. -/
theorem forall_mem_marshalCode (call : CallFrame) (args : List Argument)
    (hl : ∀ arg ∈ args, ∀ reg, reg = .rax ∨ reg ∈ Register.arguments → P (arg.loadInto reg))
    (hr : ∀ size, P (.subq size .rsp)) (hps : P (.pushq (.quad .rax))) : ∀ op ∈ marshalCode call args, P op := by
  unfold marshalCode
  refine forall_mem_append.mpr ⟨forall_mem_append.mpr ⟨?_, ?_⟩, ?_⟩
  · split
    · exact forall_mem_singleton.mpr (hr _)
    · exact forall_mem_nil _
  · intro op hop
    obtain ⟨arg, ha, hop⟩ := mem_flatMap.mp hop
    rcases mem_cons.mp hop with rfl | hop
    · exact hl arg (mem_of_mem_drop (mem_reverse.mp ha)) .rax (Or.inl rfl)
    · exact mem_singleton.mp hop ▸ hps
  · intro op hop
    obtain ⟨pair, hp, rfl⟩ := mem_map.mp hop
    exact hl pair.1 (of_mem_zip hp).1 pair.2 (Or.inr (of_mem_zip hp).2)

theorem forall_mem_releaseCode (call : CallFrame) (h : ∀ size, P (.addq size .rsp)) : ∀ op ∈ releaseCode call, P op := by
  unfold releaseCode
  split
  · exact forall_mem_singleton.mpr (h _)
  · exact forall_mem_nil _

/-- What holds of all that brings arguments into place and cleans up, and of the transfer, holds of a whole call. -/
theorem forall_mem_callCode (frame : Frame) (args : List Argument) {transfer : List Instruction}
    (hl : ∀ arg ∈ args, ∀ reg, reg = .rax ∨ reg ∈ Register.arguments → P (arg.loadInto reg))
    (hrs : ∀ size, P (.subq size .rsp)) (hp : P (.pushq (.quad .rax))) (hr : ∀ size, P (.addq size .rsp))
    (ht : ∀ op ∈ transfer, P op) : ∀ op ∈ frame.callCode args transfer, P op :=
  forall_mem_append.mpr ⟨forall_mem_append.mpr ⟨forall_mem_marshalCode _ _ hl hrs hp, ht⟩, forall_mem_releaseCode _ hr⟩

end TagAsm.Asm

namespace TagAsm.Select

open Asm Abi SelectM List

/-! ## What a step of selection yields -/

/-- After a step that has a result, the next step goes on from what was kept then. -/
theorem SelectM.run_bind_of_eq_ok {α β : Type} {first : SelectM α} {next : α → SelectM β} {kept after : Selection} {res : α}
    (h : first.run.run kept = .ok (.ok res, after)) : (first >>= next).run.run kept = (next res).run.run after := by
  rw [ExceptT.run_bind, StateT.run_bind, h]
  rfl

/-- Every result that the step can have is as described. -/
def SelectM.Yields {α : Type} (step : SelectM α) (post : α → Prop) : Prop :=
  ∀ kept result after, step.run.run kept = .ok (.ok result, after) → post result

namespace SelectM.Yields

variable {α β : Type} {post : α → Prop}

theorem any (step : SelectM α) : Yields step (fun _ => True) := fun _ _ _ _ => trivial

theorem pure {res : α} (h : post res) : Yields (pure res) post := by
  intro kept found after hrun
  obtain ⟨ho, -⟩ := ok_pair_inj hrun
  exact Except.ok.inj ho ▸ h

theorem bind {first : SelectM α} {next : α → SelectM β} {post' : β → Prop} (hf : Yields first post)
    (hn : ∀ res, post res → Yields (next res) post') : Yields (first >>= next) post' := by
  intro kept found after hrun
  obtain ⟨mid, later, hm, hr⟩ := exists_of_run_bind hrun
  exact hn mid (hf kept mid later hm) later found after hr

/-- A step whose result is not looked at, and what comes after it. -/
theorem next {first : SelectM α} {next : α → SelectM β} {post : β → Prop} (hn : ∀ res, Yields (next res) post) :
    Yields (first >>= next) post :=
  bind (any first) fun res _ => hn res

theorem mono {step : SelectM α} {post' : α → Prop} (h : Yields step post) (himp : ∀ res, post res → post' res) : Yields step post' :=
  fun kept res after hrun => himp res (h kept res after hrun)

theorem refuse (refusal : Refusal) : Yields (refuse refusal : SelectM α) post := by
  intro kept res after hrun
  obtain ⟨ho, -⟩ := ok_pair_inj hrun
  exact nomatch ho

theorem require (val : Option α) (refusal : Refusal) : Yields (require val refusal) (fun res => val = some res) := by
  cases val with
  | none => exact refuse refusal
  | some val => exact pure rfl

theorem lookUp (found : Except Fault α) : Yields (lookUp found) (fun res => found = .ok res) := by
  intro kept res after hrun
  cases found with
  | error fault => exact nomatch hrun
  | ok val =>
    obtain ⟨ho, -⟩ := ok_pair_inj hrun
    exact congrArg Except.ok (Except.ok.inj ho)

end SelectM.Yields

/-! ## Steps -/

/-- Instructions that go on to the next one. -/
def Steps (items : List Item) : Prop := ∀ item ∈ items, ∃ op : Instruction, item = .instruction op ∧ op.isStep = true

theorem Steps.nil : Steps [] := fun _ h => (nomatch h)

theorem Steps.append {first rest : List Item} (hf : Steps first) (hr : Steps rest) : Steps (first ++ rest) :=
  forall_mem_append.mpr ⟨hf, hr⟩

theorem steps_code {ops : List Instruction} (h : ∀ op ∈ ops, op.isStep = true) : Steps (Item.code ops) := by
  intro item hi
  obtain ⟨op, hop, rfl⟩ := mem_map.mp hi
  exact ⟨op, rfl, h op hop⟩

variable {items : List Item}

/-- Steps are straight, and nothing can be seen of them. -/
theorem Steps.isStraight (h : Steps items) : ∀ item ∈ items, item.isStraight = true := by
  intro item hi
  obtain ⟨op, rfl, hop⟩ := h item hi
  exact hop

theorem Steps.marks (h : Steps items) : items.flatMap Item.marks = [] := by
  rw [flatMap_eq_nil_iff]
  intro item hi
  obtain ⟨op, rfl, -⟩ := h item hi
  rfl

theorem Steps.label_not_mem (h : Steps items) (name : String) : Item.label name ∉ items := by
  intro hmem
  obtain ⟨op, heq, -⟩ := h _ hmem
  exact nomatch heq

/-! ## Calls -/

/-- To bring an argument into a register is a step. -/
theorem isStep_loadInto (arg : Argument) (reg : Register) : (arg.loadInto reg).isStep = true := by
  cases arg with
  | value slot =>
    obtain ⟨off, byRef⟩ := slot
    cases byRef <;> rfl
  | _ => rfl

theorem steps_callCode (frame : Frame) (args : List Argument) {transfer : List Instruction}
    (h : ∀ op ∈ transfer, op.isStep = true) : Steps (Item.code (frame.callCode args transfer)) :=
  steps_code (forall_mem_callCode frame args (fun arg _ reg _ => isStep_loadInto arg reg) (fun _ => rfl) rfl (fun _ => rfl) h)

theorem isStep_operationTransfer (operation : Operation) (receiver : Register) :
    ∀ op ∈ operationTransfer operation receiver, op.isStep = true := by
  unfold operationTransfer
  refine forall_mem_append.mpr ⟨forall_mem_append.mpr ⟨forall_mem_singleton.mpr rfl, ?_⟩, forall_mem_singleton.mpr rfl⟩
  split
  · exact forall_mem_singleton.mpr rfl
  · exact forall_mem_nil _

theorem steps_callDirect (frame : Frame) (sym : String) (args : List Argument) : Steps (callDirect frame sym args) :=
  steps_callCode frame args (forall_mem_singleton.mpr rfl)

theorem steps_storeResult (off : Int) : Steps (storeResult off) := steps_code (forall_mem_singleton.mpr rfl)

/-- The call of a helper is a call of its symbol. -/
theorem callHelper_yields (frame : Frame) (helper : Helper) (args : List Argument) :
    Yields (callHelper frame helper args) (· = callDirect frame helper.symbol args) :=
  .next fun _ => .pure rfl

end TagAsm.Select
