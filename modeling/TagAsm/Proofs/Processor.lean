import TagAsm.Asm.Call
import TagAsm.Asm.Unit

/-!
# What is known of registers and memory

A machine that executes straight code on registers and memory, as far as their contents are known. A word that is loaded from
an unknown place is unknown, and a word that overlaps one that is written is unknown from then on. Of a call only this is known:
it gives back the stack pointer and the frame pointer, and leaves the two words alone that link the frame to the caller's.

The main result is about the arguments of a call. For any number of them, what lies at and above the stack pointer stays as it
is while they are brought into place, so each place receives the word that its argument denotes before the call
(`Marshalled`, `marshalled_executeAll`).
-/

namespace TagAsm.Asm

open List Instruction

/-- What is known of registers and memory: the word in each register, and the word that starts at each address. -/
structure Processor where
  registers : Register → Option Int
  memory : Int → Option Int

namespace Processor

/-! ## Writing -/

/-- Puts a word into a register. -/
def put (p : Processor) (reg : Register) (word : Option Int) : Processor :=
  { p with registers := fun other => if other = reg then word else p.registers other }

/-- Writes a word to memory. -/
def store (p : Processor) (addr : Int) (word : Option Int) : Processor :=
  { p with
    memory := fun other =>
      if other = addr then word
      else if other + 8 ≤ addr ∨ addr + 8 ≤ other then p.memory other
      else none }

/-- Forgets all of memory. -/
def forget (p : Processor) : Processor := { p with memory := fun _ => none }

/-- What was put into a register is there. -/
@[simp] theorem registers_put_self (p : Processor) (reg : Register) (word : Option Int) : (p.put reg word).registers reg = word :=
  if_pos rfl

variable {reg : Register}

section

variable (p : Processor)

/-- The other registers stay. -/
theorem registers_put_of_ne {other : Register} (word : Option Int) (h : other ≠ reg) :
    (p.put reg word).registers other = p.registers other :=
  if_neg h

/-- To put something into a register leaves memory. -/
@[simp] theorem memory_put (reg : Register) (word : Option Int) : (p.put reg word).memory = p.memory := rfl

/-- To put what is there changes nothing. -/
theorem put_self {word : Option Int} (h : p.registers reg = word) : p.put reg word = p := by
  simp only [put, ← h]
  congr
  funext other
  split
  · rename_i heq
    rw [heq]
  · rfl

/-- To store leaves the registers. -/
@[simp] theorem registers_store (addr : Int) (word : Option Int) : (p.store addr word).registers = p.registers := rfl

/-- What was stored is there. -/
@[simp] theorem memory_store_self (addr : Int) (word : Option Int) : (p.store addr word).memory addr = word := if_pos rfl

/-- Words that do not overlap it stay. -/
theorem memory_store_of_apart {addr other : Int} (word : Option Int) (h : other + 8 ≤ addr ∨ addr + 8 ≤ other) :
    (p.store addr word).memory other = p.memory other := by
  have hne : other ≠ addr := by omega
  simp [store, hne, h]

end

/-! ## Operands -/

/-- The address that an operand stands for. Labels lie at the given addresses. -/
def address (addrs : String → Int) (p : Processor) : Operand → Option Int
  | .indirect reg => p.registers reg
  | .displaced reg displacement => (p.registers reg).map (· + displacement)
  | .relative symbol => some (addrs symbol)
  | .indexed base index scale displacement => do
    let start ← match base with
      | some reg => p.registers reg
      | none => some 0
    let place ← p.registers index
    return start + place * scale.toNat + displacement
  | _ => none

/-- The word that an operand stands for. -/
def read (addrs : String → Int) (p : Processor) : Operand → Option Int
  | .register reg .quad => p.registers reg
  | .immediate value => some value
  | operand => (p.address addrs operand).bind p.memory

/-- Writes a word to where an operand says. Of a register that is written in part nothing is known. -/
def write (addrs : String → Int) (p : Processor) (word : Option Int) : Operand → Processor
  | .register reg .quad => p.put reg word
  | .register reg _ => p.put reg none
  | operand =>
    match p.address addrs operand with
    | some address => p.store address word
    | none => p.forget

/-! ## Instructions -/

def push (p : Processor) (word : Option Int) : Processor :=
  match p.registers .rsp with
  | some top => (p.put .rsp (some (top - 8))).store (top - 8) word
  | none => p.forget

/-- Takes a word off the stack. -/
def pop (p : Processor) : Option Int × Processor :=
  match p.registers .rsp with
  | some top => (p.memory top, p.put .rsp (some (top + 8)))
  | none => (none, p)

/-- What is known after a call. -/
def afterCall (p : Processor) : Processor where
  registers := fun reg => if reg = .rsp ∨ reg = .rbp then p.registers reg else none
  memory := fun address =>
    match p.registers .rbp with
    | some base => if address = base ∨ address = base + 8 then p.memory address else none
    | none => none

/-- What is known after an instruction that was not followed up. -/
def unknown : Processor := ⟨fun _ => none, fun _ => none⟩

/-- What is known after an instruction. Jumps and comparisons change neither registers nor memory. -/
def execute (addrs : String → Int) (p : Processor) (op : Instruction) : Processor :=
  match op.mnemonic, op.size, op.operands with
  | .mov, some .quad, [src, tgt] => p.write addrs (p.read addrs src) tgt
  | .lea, some .quad, [src, tgt] => p.write addrs (p.address addrs src) tgt
  | .push, some .quad, [src] => p.push (p.read addrs src)
  | .pop, some .quad, [tgt] => p.pop.2.write addrs p.pop.1 tgt
  | .add, some .quad, [src, tgt] =>
    p.write addrs (do return (← p.read addrs tgt) + (← p.read addrs src)) tgt
  | .sub, some .quad, [src, tgt] =>
    p.write addrs (do return (← p.read addrs tgt) - (← p.read addrs src)) tgt
  | .xor, some .long, [.register src .long, .register tgt .long] =>
    p.put tgt (if src = tgt then some 0 else none)
  | .test, _, _ | .cmp, _, _ | .jmp, _, _ | .jne, _, _ | .je, _, _ => p
  | .call, _, _ => p.afterCall
  | _, _, _ => unknown

/-- What is known after instructions. -/
def executeAll (addrs : String → Int) (p : Processor) (ops : List Instruction) : Processor := ops.foldl (execute addrs) p

/-- What is known after an item. -/
def step (addrs : String → Int) (p : Processor) : Item → Processor
  | .instruction op => p.execute addrs op
  | _ => p

/-- What is known after items. -/
def pass (addrs : String → Int) (p : Processor) (items : List Item) : Processor := items.foldl (step addrs) p

variable {addrs : String → Int} {p : Processor}

/-- No instruction does nothing. -/
@[simp] theorem executeAll_nil : p.executeAll addrs [] = p := rfl

@[simp] theorem executeAll_cons (op : Instruction) (rest : List Instruction) :
    p.executeAll addrs (op :: rest) = (p.execute addrs op).executeAll addrs rest := rfl

@[simp] theorem executeAll_append (first rest : List Instruction) :
    p.executeAll addrs (first ++ rest) = (p.executeAll addrs first).executeAll addrs rest :=
  foldl_append

/-- Code after code is passed after it. -/
@[simp] theorem pass_append (first rest : List Item) : p.pass addrs (first ++ rest) = (p.pass addrs first).pass addrs rest := foldl_append

/-- To pass instructions is to execute them. -/
@[simp] theorem pass_code (ops : List Instruction) : p.pass addrs (Item.code ops) = p.executeAll addrs ops := by
  unfold pass Item.code executeAll
  rw [foldl_map]
  rfl

section

variable {word : Int} (h : p.registers reg = some word) (amount : Int)
include h

/-- Adds to a register that is known. -/
theorem execute_addq : p.execute addrs (.addq amount reg) = p.put reg (some (word + amount)) := by
  simp [execute, addq, write, read, Operand.quad, h]

/-- Subtracts from a register that is known. -/
theorem execute_subq : p.execute addrs (.subq amount reg) = p.put reg (some (word - amount)) := by
  simp [execute, subq, write, read, Operand.quad, h]

end

section

variable {top : Int} (h : p.registers .rsp = some top) (reg : Register)
include h

/-- Pushes a register. -/
theorem execute_pushq : p.execute addrs (.pushq (.quad reg)) = (p.put .rsp (some (top - 8))).store (top - 8) (p.registers reg) := by
  simp [execute, pushq, push, read, Operand.quad, h]

/-- Pops into a register. -/
theorem execute_popq : p.execute addrs (.popq reg) = (p.put .rsp (some (top + 8))).put reg (p.memory top) := by
  simp [execute, popq, pop, write, Operand.quad, h]

end

variable {base : Int} (h : p.registers .rbp = some base)
include h

/-- A call leaves the words alone that link the frame to the caller's. -/
theorem memory_afterCall : p.afterCall.memory base = p.memory base ∧ p.afterCall.memory (base + 8) = p.memory (base + 8) := by
  simp [afterCall, h]

/-- Stores a register in the frame. -/
theorem execute_movq_frame (reg : Register) (off : Int) :
    p.execute addrs (.movq (.quad reg) (.frame off)) = p.store (base + off) (p.registers reg) := by
  simp [execute, movq, write, read, address, Operand.quad, Operand.frame, h]

end Processor

open Processor

/-! ## Arguments -/

/-- The word that an argument of a call stands for. -/
def Argument.denotes (addrs : String → Int) (p : Processor) : Argument → Option Int
  | .value ⟨off, false⟩ => (p.registers .rbp).map (· + off)
  | .value ⟨off, true⟩ | .load off => ((p.registers .rbp).map (· + off)).bind p.memory
  | .immediate word => some word
  | .symbol name => some (addrs name)

/-- The argument does not read below this distance from the frame pointer. -/
def Argument.ReadsAbove (distance : Int) : Argument → Prop
  | .value ⟨off, true⟩ | .load off => distance ≤ off
  | _ => True

section

variable {addrs : String → Int} {p q : Processor}

/-- An argument is loaded as what it denotes. -/
theorem execute_loadInto (arg : Argument) (reg : Register) : p.execute addrs (arg.loadInto reg) = p.put reg (arg.denotes addrs p) := by
  match arg with
  | .value ⟨_, true⟩ | .value ⟨_, false⟩ | .load _ | .immediate _ | .symbol _ => rfl

/-- What an argument denotes depends on the frame pointer and on memory. -/
theorem Argument.denotes_eq (arg : Argument) (hb : q.registers .rbp = p.registers .rbp) (hm : q.memory = p.memory) :
    arg.denotes addrs q = arg.denotes addrs p := by
  match arg with
  | .value ⟨_, true⟩ | .value ⟨_, false⟩ | .load _ => simp [denotes, hb, hm]
  | .immediate _ | .symbol _ => rfl

variable {base top : Int}

/-- What an argument denotes does not change while what it reads stays. -/
theorem Argument.denotes_congr {arg : Argument} (h : arg.ReadsAbove (top - base)) (hp : p.registers .rbp = some base)
    (hq : q.registers .rbp = some base) (hm : ∀ addr, top ≤ addr → q.memory addr = p.memory addr) :
    arg.denotes addrs q = arg.denotes addrs p := by
  have hr : ∀ off, top - base ≤ off → q.memory (base + off) = p.memory (base + off) := fun off ho => hm _ (by omega)
  match arg with
  | .value ⟨off, true⟩ | .load off => simpa [denotes, hp, hq] using hr off h
  | .value ⟨_, false⟩ => simp [denotes, hp, hq]
  | .immediate _ | .symbol _ => rfl

/-- From `q`, in which the stack ends at `bottom`, arguments were pushed: what lies there and above is as it was, and below it lies
what they denote in `p`, one word below the other. -/
structure Pushed (addrs : String → Int) (p q : Processor) (base bottom : Int) (args : List Argument) (r : Processor) : Prop
    where
  stack : r.registers .rsp = some (bottom - 8 * (args.length : Nat))
  frame : r.registers .rbp = some base
  above : ∀ addr, bottom ≤ addr → r.memory addr = q.memory addr
  words : ∀ place arg, args[place]? = some arg → r.memory (bottom - 8 * (place + 1 : Nat)) = arg.denotes addrs p

/-- Arguments are pushed as what they denote, if they are read above the end of the frame. -/
theorem pushed_executeAll {bottom : Int} {args : List Argument} (hp : p.registers .rbp = some base)
    (hars : ∀ arg ∈ args, arg.ReadsAbove (top - base)) (hq : q.registers .rbp = some base)
    (hb : q.registers .rsp = some bottom) (hle : bottom ≤ top)
    (hm : ∀ addr, top ≤ addr → q.memory addr = p.memory addr) :
    Pushed addrs p q base bottom args (q.executeAll addrs (args.flatMap pushArgument)) := by
  induction args generalizing q bottom with
  | nil =>
    refine ⟨?_, hq, fun _ _ => rfl, fun place arg har => ?_⟩
    · simpa using hb
    · simp at har
  | cons arg rest ih =>
    obtain ⟨har, hr⟩ := forall_mem_cons.mp hars
    have hd : arg.denotes addrs q = arg.denotes addrs p := Argument.denotes_congr har hp hq hm
    have hps : q.executeAll addrs (pushArgument arg) =
        ((q.put .rax (arg.denotes addrs p)).put .rsp (some (bottom - 8))).store (bottom - 8) (arg.denotes addrs p) := by
      have htop : (q.put .rax (arg.denotes addrs p)).registers .rsp = some bottom := by
        rw [registers_put_of_ne _ _ (by decide), hb]
      rw [pushArgument, executeAll_cons, executeAll_cons, executeAll_nil, execute_loadInto, hd, execute_pushq htop, registers_put_self]
    rw [flatMap_cons, executeAll_append, hps]
    generalize hn : ((q.put .rax (arg.denotes addrs p)).put .rsp (some (bottom - 8))).store (bottom - 8) (arg.denotes addrs p) = next
    have hk : ∀ addr, bottom ≤ addr → next.memory addr = q.memory addr := by
      intro addr ha
      rw [← hn, memory_store_of_apart _ _ (by omega)]
      rfl
    have hw : next.memory (bottom - 8) = arg.denotes addrs p := by
      rw [← hn, memory_store_self]
    have hl : Pushed addrs p next base (bottom - 8) rest (next.executeAll addrs (rest.flatMap pushArgument)) := by
      refine ih hr ?_ ?_ (by omega) fun addr ha => ?_
      · rw [← hn]
        exact hq
      · rw [← hn]
        rfl
      · rw [hk addr (by omega), hm addr ha]
    refine ⟨?_, hl.frame, fun addr ha => ?_, fun place other ho => ?_⟩
    · rw [hl.stack, length_cons]
      congr 1
      omega
    · rw [hl.above addr (by omega), hk addr ha]
    · cases place with
      | zero =>
        obtain rfl := Option.some.inj ho
        exact (hl.above (bottom - 8) (Int.le_refl _)).trans hw
      | succ place =>
        rw [← hl.words place other ho]
        congr 1
        omega

/-- Words are loaded into different registers, none of them the frame pointer. -/
theorem executeAll_loads {pairs : List (Argument × Register)} (hn : (pairs.map Prod.snd).Nodup) (hf : Register.rbp ∉ pairs.map Prod.snd) :
    let r := q.executeAll addrs (pairs.map fun (arg, reg) => arg.loadInto reg)
    r.memory = q.memory ∧ (∀ reg, reg ∉ pairs.map Prod.snd → r.registers reg = q.registers reg) ∧
      ∀ pair ∈ pairs, r.registers pair.2 = pair.1.denotes addrs q := by
  induction pairs generalizing q with
  | nil => exact ⟨rfl, fun _ _ => rfl, forall_mem_nil _⟩
  | cons pair rest ih =>
    obtain ⟨arg, reg⟩ := pair
    rw [map_cons, nodup_cons] at hn
    rw [map_cons, mem_cons, not_or] at hf
    obtain ⟨hm, ho, hl⟩ := ih (q := q.put reg (arg.denotes addrs q)) hn.2 hf.2
    have hs : ∀ other : Argument, other.denotes addrs (q.put reg (arg.denotes addrs q)) = other.denotes addrs q :=
      fun other => other.denotes_eq (registers_put_of_ne _ _ hf.1) rfl
    intro r
    have hr : r = (q.put reg (arg.denotes addrs q)).executeAll addrs (rest.map fun (arg, reg) => arg.loadInto reg) := by
      unfold r
      rw [map_cons, executeAll_cons, execute_loadInto]
    rw [hr]
    refine ⟨hm, fun other hnm => ?_, forall_mem_cons.mpr ⟨?_, fun pair hp => ?_⟩⟩
    · rw [map_cons, mem_cons, not_or] at hnm
      rw [ho other hnm.2, registers_put_of_ne _ _ hnm.1]
    · rw [ho reg hn.1, registers_put_self]
    · rw [hl pair hp, hs]

/-- The arguments of a call are in place. -/
structure Marshalled (addrs : String → Int) (p : Processor) (top : Int) (call : CallFrame) (args : List Argument)
    (r : Processor) : Prop where
  /-- Each argument register has the word that its argument denotes. -/
  registers : ∀ (place : Nat) (arg : Argument) (reg : Register), args[place]? = some arg →
    Register.arguments[place]? = some reg → r.registers reg = arg.denotes addrs p
  /-- The other words lie in their order at the end of the stack. -/
  pushed : ∀ (place : Nat) (arg : Argument), args[Register.arguments.length + place]? = some arg →
    r.memory (top - call.total + 8 * (place : Nat)) = arg.denotes addrs p
  stack : r.registers .rsp = some (top - call.total)
  frame : r.registers .rbp = p.registers .rbp
  above : ∀ address, top ≤ address → r.memory address = p.memory address

/-- The code in front of a call brings all arguments into place. -/
theorem marshalled_executeAll {call : CallFrame} {args : List Argument} (hb : p.registers .rbp = some base)
    (htop : p.registers .rsp = some top) (hpn : 0 ≤ call.padding)
    (hps : call.pushed = 8 * ((args.drop Register.arguments.length).length : Nat))
    (har : ∀ arg ∈ args, arg.ReadsAbove (top - base)) :
    Marshalled addrs p top call args (p.executeAll addrs (marshalCode call args)) := by
  -- Padding only moves the stack pointer.
  have hpd : p.executeAll addrs (if 0 < call.padding then [.subq call.padding .rsp] else []) =
      p.put .rsp (some (top - call.padding)) := by
    split
    · rw [executeAll_cons, execute_subq htop, executeAll_nil]
    · have hz : call.padding = 0 := by omega
      rw [hz, Int.sub_zero, p.put_self htop, executeAll_nil]
  generalize hq : p.put .rsp (some (top - call.padding)) = q at hpd
  generalize he : args.drop Register.arguments.length = rest at hps
  have hrs : ∀ arg ∈ rest.reverse, arg.ReadsAbove (top - base) := fun arg ha => har arg (mem_of_mem_drop (he ▸ mem_reverse.mp ha))
  have hp : Pushed addrs p q base (top - call.padding) rest.reverse (q.executeAll addrs (rest.reverse.flatMap pushArgument)) :=
    pushed_executeAll hb hrs (hq ▸ hb) (hq ▸ rfl) (Int.sub_le_self top hpn) fun _ _ => hq ▸ rfl
  have hn : ((args.zip Register.arguments).map Prod.snd).Nodup := by
    rw [zip_eq_zip_take_min, map_snd_zip (by simp)]
    exact (take_sublist _ _).nodup (by decide)
  have hnm : ∀ reg, reg ∉ Register.arguments → reg ∉ (args.zip Register.arguments).map Prod.snd := by
    intro reg hr hmem
    obtain ⟨pair, hpr, rfl⟩ := mem_map.mp hmem
    exact hr (of_mem_zip hpr).2
  unfold marshalCode
  rw [he, executeAll_append, executeAll_append, hpd]
  generalize q.executeAll addrs (rest.reverse.flatMap pushArgument) = pushed at hp ⊢
  obtain ⟨hl, hk, hld⟩ := executeAll_loads (q := pushed) hn (hnm .rbp (by decide))
  have hab : ∀ addr, top ≤ addr → pushed.memory addr = p.memory addr := by
    intro addr had
    rw [hp.above addr (by omega), ← hq, memory_put]
  have ht : call.total = call.padding + 8 * (rest.length : Nat) := by rw [← hps, CallFrame.total]
  refine ⟨fun place arg reg ha hr => ?_, fun place arg ha => ?_, ?_, ?_, fun addr had => ?_⟩
  · rw [hld (arg, reg) (mem_of_getElem? (getElem?_zip_eq_some.mpr ⟨ha, hr⟩))]
    exact Argument.denotes_congr (har arg (mem_of_getElem? ha)) hb hp.frame hab
  · rw [← getElem?_drop, he] at ha
    have hlt := (List.getElem?_eq_some_iff.mp ha).1
    -- What is pushed last is the first one of the rest.
    have hrv : rest.reverse[rest.length - 1 - place]? = some arg := by
      rwa [getElem?_reverse (by omega), Nat.sub_sub_self (by omega)]
    rw [hl, ← hp.words _ arg hrv, ht]
    congr 1
    omega
  · rw [hk .rsp (hnm .rsp (by decide)), hp.stack, length_reverse, ht, Int.sub_sub]
  · rw [hk .rbp (hnm .rbp (by decide)), hp.frame, hb]
  · rw [hl, hab addr had]

end

end TagAsm.Asm
