import Mathlib.Logic.Function.Iterate
import TagAsm.Asm.Call
import TagAsm.Asm.Unit
import TagAsm.Proofs.Runs

/-!
# Running code

A machine that follows labels and jumps. Calls return, and what they compute is not known here, with one exception: the helper
that tells whether a value is true leaves its answer in `rax`, and when the answer is tested an oracle says what it is. So the
machine keeps track of which value a register is about, and of nothing else. It shows the labels and comments that it passes
and the slots whose values it tests, and in the end how it left the code. Where the code has no meaning here, the machine
stands still.
-/

namespace TagAsm.Asm

open List Instruction
open Abi (Helper)

/-! ## Registers -/

/-- What is known of the contents of a register. -/
inductive Contents where
  | unknown
  /-- The address of the value in this slot. -/
  | value (slot : Slot)
  /-- Whether the value in this slot is true. -/
  | truth (slot : Slot)
  | number (val : Int)
  deriving DecidableEq, Repr

/-- What the helper that takes truth values out answers for a register with these contents. -/
def Contents.answer : Contents → Contents
  | .value slot => .truth slot
  | _ => .unknown

/-- What a register holds after it was loaded from this operand. -/
def Operand.loaded : Operand → Contents
  | .immediate value => .number value
  | .displaced .rbp off => .value ⟨off, true⟩
  | _ => .unknown

/-- What a register holds after it got the address of this operand. -/
def Operand.address : Operand → Contents
  | .displaced .rbp off => .value ⟨off, false⟩
  | _ => .unknown

/-- What the machine keeps track of. -/
structure Registers where
  rdi : Contents
  rax : Contents
  /-- What the last test was about. -/
  flags : Contents
  deriving DecidableEq, Repr

namespace Registers

/-- Nothing is known. -/
def blank : Registers := ⟨.unknown, .unknown, .unknown⟩

/-- Puts something into a register. Of a register that is written in part nothing is known, and other places are not kept track
of. -/
def put (registers : Registers) (contents : Contents) : Operand → Registers
  | .register .rdi .quad => { registers with rdi := contents }
  | .register .rax .quad => { registers with rax := contents }
  | .register .rdi _ => { registers with rdi := .unknown }
  | .register .rax _ => { registers with rax := .unknown }
  | _ => registers

/-- What an instruction that goes on to the next one does. -/
def execute (registers : Registers) (op : Instruction) : Registers :=
  match op.mnemonic, op.operands with
  | .mov, [src, tgt] => registers.put src.loaded tgt
  | .lea, [src, tgt] => registers.put src.address tgt
  | .push, _ => registers
  | .test, [.register .rax .byte, .register .rax .byte] => { registers with flags := registers.rax }
  | .call, [.symbol name] =>
    ⟨.unknown, if name = (Helper.unwrap .bool).symbol then registers.rdi.answer else .unknown, .unknown⟩
  | .call, _ => blank
  | .pop, [tgt] => registers.put .unknown tgt
  | .add, [_, tgt] | .sub, [_, tgt] | .xor, [_, tgt] => { registers.put .unknown tgt with flags := .unknown }
  | .cmp, _ | .test, _ => { registers with flags := .unknown }
  | _, _ => blank

end Registers

/-! ## The machine -/

/-- What can be seen of a machine. -/
inductive Mark where
  | label (name : String)
  | comment (text : String)
  /-- The value in this slot is tested. -/
  | test (slot : Slot)
  /-- The code returns to its caller. -/
  | returned
  /-- The process ends. -/
  | exited
  deriving DecidableEq, Repr

/-- Where a machine is. -/
inductive Point where
  /-- In front of the item with this number. -/
  | item (index : Nat)
  /-- Out of the code. -/
  | outside
  deriving DecidableEq, Repr

/-- Where a label stands. A label that is missing, or stands in more than one place, is nowhere in the code. -/
def Point.ofLabel (items : List Item) (name : String) : Point :=
  .item (if items.count (.label name) = 1 then items.idxOf (.label name) else items.length)

/-- A label that stands in one place is found there. -/
theorem Point.ofLabel_append_cons {before after : List Item} {name : String} (hb : Item.label name ∉ before)
    (ha : Item.label name ∉ after) : ofLabel (before ++ .label name :: after) name = .item before.length := by
  rw [ofLabel, count_append, count_cons_self, count_eq_zero.mpr hb, count_eq_zero.mpr ha, idxOf_append_of_notMem hb, idxOf_cons_self]
  rfl

/-- A machine under way. -/
structure Machine where
  point : Point
  registers : Registers
  /-- How many tests the oracle has answered. -/
  tests : Nat
  marks : List Mark
  deriving DecidableEq, Repr

/-- Whether an instruction goes on to the next one. -/
def Instruction.isStep (op : Instruction) : Bool :=
  match op.mnemonic with
  | .jmp | .jne | .je | .ret | .syscall => false
  | _ => true

namespace Machine

/-- Executes the instruction with this number. -/
def execute (items : List Item) (oracle : Nat → Bool) (index : Nat) (op : Instruction) (machine : Machine) : Machine :=
  if op.isStep then { machine with point := .item (index + 1), registers := machine.registers.execute op }
  else
    match op.mnemonic, op.operands with
    | .jmp, [.symbol tgt] => { machine with point := .ofLabel items tgt }
    | .jne, [.symbol tgt] =>
      match machine.registers.flags with
      | .truth slot =>
        { machine with
          point := if oracle machine.tests then .ofLabel items tgt else .item (index + 1)
          tests := machine.tests + 1
          marks := machine.marks ++ [.test slot] }
      | _ => machine
    | .ret, _ => { machine with point := .outside, marks := machine.marks ++ [.returned] }
    | .syscall, _ =>
      if machine.registers.rax = .number Instruction.exitCall then
        { machine with point := .outside, marks := machine.marks ++ [.exited] }
      else machine
    | _, _ => machine

/-- Passes the item with this number. -/
def pass (items : List Item) (oracle : Nat → Bool) (index : Nat) (item : Item) (machine : Machine) : Machine :=
  match item with
  | .label name => { machine with point := .item (index + 1), marks := machine.marks ++ [.label name] }
  | .comment text => { machine with point := .item (index + 1), marks := machine.marks ++ [.comment text] }
  | .exported _ => { machine with point := .item (index + 1) }
  | .instruction op => machine.execute items oracle index op
  | .data _ => machine

/-- Passes the item that the machine is in front of, if there is such an item. -/
def step (items : List Item) (oracle : Nat → Bool) (machine : Machine) : Machine :=
  match machine.point with
  | .outside => machine
  | .item index =>
    match items[index]? with
    | some item => machine.pass items oracle index item
    | none => machine

/-- A machine in front of a label. -/
def start (items : List Item) (label : String) : Machine := ⟨.ofLabel items label, .blank, 0, []⟩

/-- The code as a run that starts at a label. It is over once the code has been left. -/
def run (items : List Item) (label : String) (oracle : Nat → Bool) : Run Mark := fun steps =>
  let machine := (step items oracle)^[steps] (start items label)
  ⟨machine.marks, machine.point = .outside⟩

end Machine

/-! ## Straight code -/

namespace Item

/-- Whether an item goes on to the next one. -/
def isStraight : Item → Bool
  | .label _ | .comment _ | .exported _ => true
  | .instruction op => op.isStep
  | .data _ => false

/-- What can be seen when the item is passed. -/
def marks : Item → List Mark
  | .label name => [.label name]
  | .comment text => [.comment text]
  | _ => []

/-- What the item does to the registers. -/
def effect (registers : Registers) : Item → Registers
  | .instruction op => registers.execute op
  | _ => registers

end Item

namespace Machine

variable {items : List Item} (oracle : Nat → Bool) {machine : Machine} {before after : List Item} {item : Item}

theorem step_of_item (his : items = before ++ item :: after) (hp : machine.point = .item before.length) :
    machine.step items oracle = machine.pass items oracle before.length item := by
  have hi : items[before.length]? = some item := by simp [his]
  simp [step, hp, hi]

theorem step_of_outside (h : machine.point = .outside) : machine.step items oracle = machine := by
  simp [step, h]

theorem pass_of_isStraight (h : item.isStraight = true) (index : Nat) (machine : Machine) : machine.pass items oracle index item =
      ⟨.item (index + 1), item.effect machine.registers, machine.tests, machine.marks ++ item.marks⟩ := by
  cases item with
  | label name => rfl
  | comment text => rfl
  | exported name => simp [pass, Item.effect, Item.marks]
  | instruction op =>
    have hop : op.isStep = true := h
    simp [pass, execute, hop, Item.effect, Item.marks]
  | data data => exact nomatch h

/-- Straight code is passed from top to bottom. -/
theorem iterate_step_of_isStraight {code : List Item} (hi : items = before ++ (code ++ after))
    (hc : ∀ item ∈ code, item.isStraight = true) (hp : machine.point = .item before.length) :
    (step items oracle)^[code.length] machine = ⟨.item (before ++ code).length, code.foldl Item.effect machine.registers, machine.tests,
        machine.marks ++ code.flatMap Item.marks⟩ := by
  induction code generalizing before machine with
  | nil =>
    obtain ⟨point, registers, tests, marks⟩ := machine
    simp only at hp
    simp [hp]
  | cons item rest ih =>
    have hr : items = (before ++ [item]) ++ (rest ++ after) := by simp [hi]
    rw [length_cons, Function.iterate_succ_apply, step_of_item oracle hi hp, pass_of_isStraight oracle (hc item mem_cons_self),
      ih hr (fun other ho => hc other (mem_cons_of_mem _ ho)) (by simp)]
    simp

/-! ## Jumps and exits -/

section

variable (machine : Machine) {before after : List Item}

theorem step_of_jmp {tgt : String} (hi : items = before ++ .instruction (.jmp tgt) :: after) (hp : machine.point = .item before.length) :
    machine.step items oracle = { machine with point := .ofLabel items tgt } := by
  rw [step_of_item oracle hi hp]
  simp [pass, execute, jmp, isStep]

theorem step_of_jne {size : Option Size} {tgt : String} {slot : Slot}
    (hi : items = before ++ .instruction ⟨.jne, size, [.symbol tgt]⟩ :: after)
    (hp : machine.point = .item before.length) (hf : machine.registers.flags = .truth slot) :
    machine.step items oracle =
      { machine with
        point := if oracle machine.tests then .ofLabel items tgt else .item (before.length + 1)
        tests := machine.tests + 1
        marks := machine.marks ++ [.test slot] } := by
  rw [step_of_item oracle hi hp]
  simp [pass, execute, isStep, hf]

theorem step_of_ret (hi : items = before ++ .instruction .ret :: after) (hp : machine.point = .item before.length) :
    machine.step items oracle = { machine with point := .outside, marks := machine.marks ++ [.returned] } := by
  rw [step_of_item oracle hi hp]
  simp [pass, execute, ret, isStep]

theorem step_of_syscall (hi : items = before ++ .instruction ⟨.syscall, none, []⟩ :: after)
    (hp : machine.point = .item before.length) (hrax : machine.registers.rax = .number exitCall) :
    machine.step items oracle = { machine with point := .outside, marks := machine.marks ++ [.exited] } := by
  rw [step_of_item oracle hi hp]
  simp [pass, execute, isStep, hrax]

end

/-! ## Runs -/

/-- A step takes nothing back. -/
theorem marks_prefix_step (machine : Machine) : machine.marks <+: (machine.step items oracle).marks := by
  unfold step
  split
  · exact prefix_refl _
  · split
    · unfold pass
      split
      · exact prefix_append _ _
      · exact prefix_append _ _
      · exact prefix_refl _
      · unfold execute
        repeat' split
        all_goals first | exact prefix_refl _ | exact prefix_append _ _
      · exact prefix_refl _
    · exact prefix_refl _

theorem steady_run (items : List Item) (label : String) : (run items label oracle).Steady := by
  apply Run.steady_of_succ
  intro n
  simp only [run, Function.iterate_succ_apply', decide_eq_true_eq, Progress.mk.injEq]
  refine ⟨marks_prefix_step oracle _, fun hend => ?_⟩
  rw [step_of_outside oracle hend]
  exact ⟨rfl, rfl⟩

end Machine

end TagAsm.Asm
