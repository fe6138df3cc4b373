import TagAsm.Proofs.StackDepth

/-!
# What calls are about

Which values a call is about can be read off the code in front of it: the address of a value is that of its slot, or is loaded
from its slot, and operations are called through the table of a value. While instructions are passed, this much is kept track of
for every register and for what was pushed (`Preparation`), so that each call shows what it goes to and what it passes. Code is
then seen as a row of events: calls, and places where paths come together or part (`events`).

A call that was put together from arguments shows just these arguments (`preparesCall_callCode`).
-/

namespace TagAsm.Asm

open Abi List Instruction

/-! ## Events -/

/-- What is known of a word that can be passed. -/
inductive Held where
  | unknown
  /-- The address of the value in this slot. -/
  | value (slot : Slot)
  /-- The address of the operations of the value in this slot. -/
  | table (slot : Slot)
  deriving DecidableEq, Repr

/-- What a call goes to. -/
inductive Callee where
  | unknown
  | symbol (name : String)
  /-- An operation of the value in this slot. -/
  | operation (kind : Operation) (receiver : Slot)
  deriving DecidableEq, Repr

/-- A call, with what is in the registers that carry arguments, and with what was pushed. -/
structure Call where
  callee : Callee
  passed : List Held
  deriving DecidableEq, Repr

/-- What happens in code. -/
inductive Event where
  | call (call : Call)
  /-- Paths come together or part. -/
  | joint
  deriving DecidableEq, Repr

/-- What is known of the registers, and of what was pushed, the last word first. -/
@[ext]
structure Preparation where
  registers : Register → Held
  pushed : List Held

namespace Preparation

/-- Nothing is known, and nothing was pushed. -/
def blank : Preparation := ⟨fun _ => .unknown, []⟩

def put (p : Preparation) (reg : Register) (held : Held) : Preparation :=
  { p with registers := fun other => if other = reg then held else p.registers other }

/-- What is loaded from an operand. -/
def loaded (p : Preparation) : Operand → Held
  | .register reg .quad => p.registers reg
  | .displaced base off =>
    if base = .rbp then .value ⟨off, true⟩
    else
      match p.registers base with
      | .value slot => if off = tableOffset then .table slot else .unknown
      | _ => .unknown
  | _ => .unknown

/-- The address of an operand. -/
def addressOf : Operand → Held
  | .displaced base off => if base = .rbp then .value ⟨off, false⟩ else .unknown
  | _ => .unknown

/-- What is known after an instruction. Calls leave nothing behind. -/
def execute (p : Preparation) (op : Instruction) : Preparation :=
  match op.mnemonic, op.operands with
  | .mov, [src, .register reg .quad] => p.put reg (p.loaded src)
  | .lea, [src, .register reg .quad] => p.put reg (addressOf src)
  | .add, [_, .register reg _] | .sub, [_, .register reg _] | .xor, [_, .register reg _] =>
    p.put reg .unknown
  | .push, [.register reg .quad] => { p with pushed := p.registers reg :: p.pushed }
  | .test, _ | .cmp, _ => p
  | _, _ => blank

/-- What is known after an item. At a label, control can come from elsewhere. -/
def step (p : Preparation) : Item → Preparation
  | .instruction op => p.execute op
  | .comment _ | .exported _ => p
  | .label _ | .data _ => blank

/-- What stands at this place of the table that a register points to. -/
def entry (p : Preparation) (reg : Register) (off : Int) : Callee :=
  match p.registers reg, Operation.all.find? (·.offset = off) with
  | .table slot, some kind => .operation kind slot
  | _, _ => .unknown

/-- What an instruction calls, if it is a call. -/
def callee? (p : Preparation) (op : Instruction) : Option Callee :=
  match op.mnemonic, op.operands with
  | .call, [.symbol name] => some (.symbol name)
  | .call, [.indirect reg] => some (p.entry reg 0)
  | .call, [.displaced reg off] => some (p.entry reg off)
  | .call, _ => some .unknown
  | _, _ => none

/-- What a call passes: the words in registers, then those on the stack. -/
def passed (p : Preparation) : List Held := Register.arguments.map p.registers ++ p.pushed

/-- The call that an item makes. -/
def call? (p : Preparation) : Item → Option Call
  | .instruction op => (p.callee? op).map (⟨·, p.passed⟩)
  | _ => none

/-- What happens at an item. -/
def event? (p : Preparation) (item : Item) : Option Event :=
  match p.call? item with
  | some call => some (.call call)
  | none => if item.isJoint then some .joint else none

/-- What happens in code. -/
def events (p : Preparation) : List Item → List Event
  | [] => []
  | item :: rest => (p.event? item).toList ++ (p.step item).events rest

variable (p : Preparation)

theorem events_append (first rest : List Item) : p.events (first ++ rest) = p.events first ++ (first.foldl step p).events rest := by
  induction first generalizing p with
  | nil => rfl
  | cons item first ih => rw [cons_append, events, events, ih, append_assoc, foldl_cons]

/-! ## Writing -/

variable (reg : Register) (held : Held)

@[simp] theorem registers_put_self : (p.put reg held).registers reg = held := if_pos rfl

theorem registers_put_of_ne {reg other : Register} (h : other ≠ reg) : (p.put reg held).registers other = p.registers other := if_neg h

/-- Registers that carry no arguments do not matter for what is passed. -/
theorem passed_put {reg : Register} (h : reg ∉ Register.arguments) : (p.put reg held).passed = p.passed := by
  unfold passed
  congr 1
  exact map_congr_left fun other ho => registers_put_of_ne _ _ (ne_of_mem_of_not_mem ho h)

@[simp] theorem put_blank : blank.put reg .unknown = blank := by
  ext
  · simp [put, blank]
  · rfl

end Preparation

/-! ## Quiet code -/

/-- Whether an instruction goes on to the next one, calls nothing, and writes to nothing but registers. -/
def Instruction.isQuiet (op : Instruction) : Bool :=
  match op.mnemonic, op.destination? with
  | .call, _ | .jmp, _ | .jne, _ | .je, _ | .ret, _ | .syscall, _ => false
  | _, some (.register _ _) | _, none => true
  | _, some _ => false

variable {op : Instruction}

theorem Instruction.isQuiet_cases (h : op.isQuiet = true) : op.mnemonic ≠ .call ∧ op.target? = none ∧ op.goesOn = true ∧
      ∀ opd, op.destination? = some opd → ∃ reg width, opd = .register reg width := by
  obtain ⟨mnemonic, size, opds⟩ := op
  have hd : ∀ opd, destination? ⟨mnemonic, size, opds⟩ = some opd → ∃ reg width, opd = .register reg width := by
    intro opd ho
    cases opd with
    | register reg width => exact ⟨reg, width, rfl⟩
    | _ => cases mnemonic <;> simp [isQuiet, ho] at h
  cases mnemonic with
  | call | jmp | jne | je | ret | syscall => cases h
  | _ => exact ⟨Mnemonic.noConfusion, rfl, rfl, hd⟩

theorem Instruction.call?_eq_none (h : op.mnemonic ≠ .call) (p : Preparation) : p.call? (.instruction op) = none := by
  have hn : p.callee? op = none := by
    unfold Preparation.callee?
    split <;> simp_all
  rw [Preparation.call?, hn, Option.map_none]

namespace Preparation

theorem events_code {ops : List Instruction} (h : ∀ op ∈ ops, op.isQuiet = true) (p : Preparation) : p.events (Item.code ops) = [] := by
  induction ops generalizing p with
  | nil => rfl
  | cons op rest ih =>
    obtain ⟨hop, hr⟩ := forall_mem_cons.mp h
    obtain ⟨hc, ht, -⟩ := isQuiet_cases hop
    have hn : p.event? (.instruction op) = none := by
      simp [event?, call?_eq_none hc p, Item.isJoint, Item.target?, ht]
    change (p.event? (.instruction op)).toList ++ (p.execute op).events (Item.code rest) = []
    rw [hn, ih hr]
    rfl

theorem foldl_step_code (p : Preparation) (ops : List Instruction) : (Item.code ops).foldl step p = ops.foldl execute p := foldl_map

end Preparation

/-! ## Arguments -/

namespace Argument

/-- What is known of an argument when it is in its place. -/
def held : Argument → Held
  | .value slot => .value slot
  | .load off => .value ⟨off, true⟩
  | .immediate _ | .symbol _ => .unknown

theorem isQuiet_loadInto (arg : Argument) (reg : Register) : (arg.loadInto reg).isQuiet = true := by
  match arg with
  | .value ⟨_, true⟩ | .value ⟨_, false⟩ | .load _ | .immediate _ | .symbol _ => rfl

end Argument

/-- What is passed if so many registers are left for these arguments. Registers that are not needed hold nothing that is known. -/
def handedFrom (registers : Nat) (args : List Argument) : List Held :=
  (args.take registers).map Argument.held ++ List.replicate (registers - args.length) .unknown ++ (args.drop registers).map Argument.held

/-- What a call with these arguments passes. -/
def handed (args : List Argument) : List Held := handedFrom Register.arguments.length args

theorem mem_handedFrom {registers : Nat} {args : List Argument} {held : Held} (h : held ∈ handedFrom registers args) :
    held = .unknown ∨ ∃ arg ∈ args, arg.held = held := by
  rcases mem_append.mp h with h | h
  · rcases mem_append.mp h with h | h
    · obtain ⟨arg, har, hh⟩ := mem_map.mp h
      exact Or.inr ⟨arg, mem_of_mem_take har, hh⟩
    · exact Or.inl (eq_of_mem_replicate h)
  · obtain ⟨arg, har, hh⟩ := mem_map.mp h
    exact Or.inr ⟨arg, mem_of_mem_drop har, hh⟩

theorem handed_cons (arg : Argument) (rest : List Argument) :
    handed (arg :: rest) = arg.held :: handedFrom (Register.arguments.length - 1) rest := by
  simp [handed, handedFrom, Register.arguments]

namespace Preparation

theorem execute_loadInto (p : Preparation) (arg : Argument) (reg : Register) : p.execute (arg.loadInto reg) = p.put reg arg.held := by
  match arg with
  | .value ⟨_, true⟩ | .value ⟨_, false⟩ | .load _ | .immediate _ | .symbol _ => rfl

theorem execute_zero (p : Preparation) (reg : Register) : p.execute (.zero reg) = p.put reg .unknown := rfl

/-- Arguments are pushed through one register. -/
theorem pushes (args : List Argument) (p : Preparation) :
    ((args.reverse.flatMap pushArgument).foldl execute p).pushed = args.map Argument.held ++ p.pushed ∧ ∀ reg, reg ≠ .rax →
        ((args.reverse.flatMap pushArgument).foldl execute p).registers reg = p.registers reg := by
  induction args with
  | nil => exact ⟨rfl, fun _ _ => rfl⟩
  | cons arg rest ih =>
    -- The first argument is pushed last.
    obtain ⟨hp, hrs⟩ := ih
    rw [reverse_cons, flatMap_append, flatMap_singleton, foldl_append]
    generalize (rest.reverse.flatMap pushArgument).foldl execute p = now at hp hrs ⊢
    have hps : (pushArgument arg).foldl execute now =
        { now.put .rax arg.held with pushed := arg.held :: now.pushed } := by
      change (now.execute (arg.loadInto .rax)).execute (.pushq (.quad .rax)) = _
      rw [execute_loadInto]
      rfl
    rw [hps]
    refine ⟨by rw [hp]; rfl, fun reg hr => ?_⟩
    exact (registers_put_of_ne now arg.held hr).trans (hrs reg hr)

/-- Arguments are loaded into one register each. -/
theorem loads (args : List Argument) {registers : List Register} (hn : registers.Nodup) (p : Preparation)
    (hu : ∀ reg ∈ registers, p.registers reg = .unknown) :
    let now := ((args.zip registers).map fun (arg, reg) => arg.loadInto reg).foldl execute p
    registers.map now.registers = (args.take registers.length).map Argument.held ++ replicate (registers.length - args.length) .unknown ∧
      (∀ reg, reg ∉ registers → now.registers reg = p.registers reg) ∧ now.pushed = p.pushed := by
  induction registers generalizing args p with
  | nil => cases args <;> simp
  | cons reg registers ih =>
    obtain ⟨hnm, hr⟩ := nodup_cons.mp hn
    cases args with
    | nil =>
      have hall : ∀ held ∈ (reg :: registers).map p.registers, held = .unknown := by simpa using hu
      simpa using eq_replicate_of_mem hall
    | cons arg args =>
      have hne : ∀ other ∈ registers, other ≠ reg := fun other ho heq => hnm (heq ▸ ho)
      obtain ⟨hv, hos, hp⟩ := ih args hr (p.put reg arg.held) fun other ho =>
        (registers_put_of_ne p _ (hne other ho)).trans (hu other (mem_cons_of_mem _ ho))
      simp only [zip_cons_cons, map_cons, foldl_cons, execute_loadInto]
      refine ⟨?_, fun other ho => ?_, hp⟩
      · rw [hv, hos reg hnm, registers_put_self]
        simp
      · rw [mem_cons, not_or] at ho
        rw [hos other ho.2, registers_put_of_ne _ _ ho.1]

/-- In front of a call, all arguments are in their places. -/
theorem marshalled (call : CallFrame) (args : List Argument) : let now := (marshalCode call args).foldl execute blank
    now.passed = handed args ∧ ∀ (place : Nat) (reg : Register) (arg : Argument), Register.arguments[place]? = some reg →
        args[place]? = some arg → now.registers reg = arg.held := by
  have hpd : (if 0 < call.padding then [Instruction.subq call.padding .rsp] else []).foldl execute blank = blank := by
    split
    · exact put_blank .rsp
    · rfl
  obtain ⟨hp, hk⟩ := pushes (args.drop Register.arguments.length) blank
  unfold marshalCode
  rw [foldl_append, foldl_append, hpd]
  generalize ((args.drop Register.arguments.length).reverse.flatMap pushArgument).foldl execute blank = pushed at hp hk ⊢
  have hu : ∀ reg ∈ Register.arguments, pushed.registers reg = .unknown := fun reg hr => hk reg (ne_of_mem_of_not_mem hr (by decide))
  obtain ⟨hv, -, hs⟩ := loads args (by decide : Register.arguments.Nodup) pushed hu
  generalize ((args.zip Register.arguments).map fun (arg, reg) => arg.loadInto reg).foldl execute pushed = now at hv hs ⊢
  constructor
  · rw [passed, hv, hs, hp, handed, handedFrom]
    exact congrArg _ (append_nil _)
  · intro place reg arg hr har
    have hat : (Register.arguments.map now.registers)[place]? = some (now.registers reg) := by
      rw [getElem?_map, hr, Option.map_some]
    have hlt : place < Register.arguments.length := (List.getElem?_eq_some_iff.mp hr).1
    have ht : ((args.take Register.arguments.length).map Argument.held)[place]? = some arg.held := by
      rw [getElem?_map, getElem?_take_of_lt hlt, har, Option.map_some]
    rw [hv, getElem?_append_left (List.getElem?_eq_some_iff.mp ht).1, ht] at hat
    exact (Option.some.inj hat).symm

end Preparation

open Preparation

theorem isQuiet_marshalCode (call : CallFrame) (args : List Argument) : ∀ op ∈ marshalCode call args, op.isQuiet = true :=
  forall_mem_marshalCode call args (fun arg _ reg _ => arg.isQuiet_loadInto reg) (fun _ => rfl) rfl

/-! ## Calls -/

/-- The code brings the arguments of a call into place, makes the call, and cleans up. -/
inductive PreparesCall : List Instruction → Call → Prop where
  | intro {before after : List Instruction} {op : Instruction} {call : Call} (hbefore : ∀ op ∈ before, op.isQuiet = true)
    (hcall : (before.foldl Preparation.execute .blank).call? (.instruction op) = some call)
    (hafter : ∀ op ∈ after, op.isQuiet = true) (hblank : after.foldl Preparation.execute .blank = .blank) :
    PreparesCall (before ++ op :: after) call

theorem Preparation.mnemonic_eq_call {p : Preparation} {call : Call} (h : p.call? (.instruction op) = some call) :
    op.mnemonic = .call := by
  by_contra hne
  rw [call?_eq_none hne] at h
  cases h

theorem Preparation.execute_call (p : Preparation) (h : op.mnemonic = .call) : p.execute op = .blank := by
  obtain ⟨mnemonic, size, opds⟩ := op
  obtain rfl : mnemonic = .call := h
  rfl

/-- A prepared call is all that happens, and it leaves nothing behind. -/
theorem PreparesCall.events {code : List Instruction} {call : Call} (h : PreparesCall code call) :
    blank.events (Item.code code) = [.call call] ∧ (Item.code code).foldl step .blank = .blank := by
  cases h with
  | @intro before after op call hb hc ha hbl =>
    have hop := execute_call (before.foldl execute .blank) (mnemonic_eq_call hc)
    have hcd : Item.code (before ++ op :: after) = Item.code before ++ (.instruction op :: Item.code after) := by simp [Item.code]
    constructor
    · have he : (before.foldl execute .blank).event? (.instruction op) = some (.call call) := by
        rw [event?, hc]
      rw [hcd, Preparation.events_append, Preparation.events_code hb, Preparation.foldl_step_code, Preparation.events, he]
      change [Event.call call] ++ ((before.foldl execute .blank).execute op).events (Item.code after) = _
      rw [hop, events_code ha, append_nil]
    · rw [foldl_step_code, foldl_append, foldl_cons, hop, hbl]

end TagAsm.Asm

namespace TagAsm.Select

open Asm Abi List Preparation CallFrame

/-- What a call with these arguments goes to. -/
inductive Transfer.Reaches (args : List Argument) : Transfer → Callee → Prop where
  | operation (kind : Operation) {receiver : Register} {place : Nat} {slot : Slot}
    (hregister : Register.arguments[place]? = some receiver) (hvalue : args[place]? = some (.value slot)) :
    Reaches args (.operation kind receiver) (.operation kind slot)
  | direct (sym : String) : Reaches args (.direct sym) (.symbol sym)
  | native (sym : String) : Reaches args (.native sym) (.symbol sym)

theorem reaches_copy (slot src : Slot) : (Transfer.operation .copy .rsi).Reaches [.value slot, .value src] (.operation .copy src) :=
  .operation .copy (rfl : Register.arguments[1]? = some .rsi) rfl

theorem reaches_drop (slot : Slot) : (Transfer.operation .drop .rdi).Reaches [.value slot] (.operation .drop slot) :=
  .operation .drop (rfl : Register.arguments[0]? = some .rdi) rfl

theorem find?_offset (kind : Operation) : Operation.all.find? (·.offset = kind.offset) = some kind := by
  cases kind <;> decide

variable {before after : List Instruction}

section

variable (hb : ∀ op ∈ before, op.isQuiet = true) (ha : ∀ op ∈ after, op.isQuiet = true)
  (hbl : after.foldl Preparation.execute .blank = .blank)
include hb ha hbl

/-- The table of the receiver is loaded, and says where to go. -/
theorem preparesCall_operationTransfer {receiver : Register} {slot : Slot} (hr : receiver ≠ .rbp)
    (hh : (before.foldl execute .blank).registers receiver = .value slot) (kind : Operation) :
    PreparesCall (before ++ operationTransfer kind receiver ++ after) ⟨.operation kind slot, (before.foldl execute .blank).passed⟩ := by
  have hz : ∀ op ∈ (if kind = .call then [Instruction.zero .rax] else []), op.isQuiet = true := by
    split
    · exact forall_mem_singleton.mpr rfl
    · exact forall_mem_nil _
  generalize hp : before.foldl execute .blank = p at hh ⊢
  have hl : p.execute (.movq (.displaced receiver tableOffset) (.quad .r11)) = p.put .r11 (.table slot) := by
    change p.put .r11 (p.loaded (.displaced receiver tableOffset)) = _
    simp [loaded, hr, hh]
  obtain ⟨now, hnow, ht, hps⟩ : ∃ now : Preparation,
      (if kind = .call then [Instruction.zero .rax] else []).foldl execute (p.put .r11 (.table slot)) = now ∧
        now.registers .r11 = .table slot ∧ now.passed = p.passed := by
    refine ⟨_, rfl, ?_⟩
    have hf := p.passed_put (.table slot) (by decide : Register.r11 ∉ Register.arguments)
    split
    · refine ⟨?_, ((p.put .r11 (.table slot)).passed_put .unknown (by decide : Register.rax ∉ Register.arguments)).trans hf⟩
      exact (registers_put_of_ne _ _ (by decide)).trans (p.registers_put_self .r11 _)
    · exact ⟨p.registers_put_self .r11 _, hf⟩
  have he : now.entry .r11 kind.offset = .operation kind slot := by
    rw [entry, ht, find?_offset]
  have hc : now.callee? (.call (if kind.offset = 0 then .indirect .r11 else .displaced .r11 kind.offset)) =
      some (.operation kind slot) := by
    split
    · rename_i ho
      rw [← he, ho]
      rfl
    · exact congrArg some he
  have hcd : before ++ operationTransfer kind receiver ++ after =
      (before ++ [.movq (.displaced receiver tableOffset) (.quad .r11)] ++ (if kind = .call then [Instruction.zero .rax] else []))
        ++ .call (if kind.offset = 0 then .indirect .r11 else .displaced .r11 kind.offset) :: after := by
    simp [operationTransfer]
  rw [hcd]
  refine .intro ?_ ?_ ha hbl
  · exact forall_mem_append.mpr ⟨forall_mem_append.mpr ⟨hb, forall_mem_singleton.mpr rfl⟩, hz⟩
  · rw [foldl_append, foldl_append, foldl_cons, foldl_nil, hp, hl, hnow, call?, hc, hps]
    rfl

theorem preparesCall_symbol (sym : String) : PreparesCall (before ++ [.call (.symbol sym)] ++ after)
      ⟨.symbol sym, (before.foldl execute .blank).passed⟩ := by
  rw [append_assoc]
  exact .intro hb rfl ha hbl

end

variable {args : List Argument} {transfer : Transfer} {callee : Callee}

variable (frame : Frame) (h : transfer.Reaches args callee)
include h

/-- A call shows its arguments, and what it goes to. -/
theorem preparesCall_callCode : PreparesCall (frame.callCode args transfer.code) ⟨callee, handed args⟩ := by
  have hc : frame.callCode args transfer.code = marshalCode (ofArguments frame.size args) args ++ transfer.code
        ++ releaseCode (ofArguments frame.size args) := rfl
  obtain ⟨ha, hbl⟩ : (∀ op ∈ releaseCode (ofArguments frame.size args), op.isQuiet = true) ∧
      (releaseCode (ofArguments frame.size args)).foldl execute .blank = .blank := by
    unfold releaseCode
    split
    · exact ⟨forall_mem_singleton.mpr rfl, put_blank .rsp⟩
    · exact ⟨forall_mem_nil _, rfl⟩
  have hb := isQuiet_marshalCode (ofArguments frame.size args) args
  obtain ⟨hp, hrs⟩ := marshalled (ofArguments frame.size args) args
  rw [hc, ← hp]
  cases h with
  | @operation kind receiver place slot hr hv =>
    have hrc : receiver ≠ .rbp := ne_of_mem_of_not_mem (mem_of_getElem? hr) (by decide)
    exact preparesCall_operationTransfer hb ha hbl hrc (hrs place receiver _ hr hv) kind
  | direct sym => exact preparesCall_symbol hb ha hbl sym
  | native sym =>
    have hz : ∀ op ∈ marshalCode (ofArguments frame.size args) args ++ [.zero .rax], op.isQuiet = true :=
      forall_mem_append.mpr ⟨hb, forall_mem_singleton.mpr rfl⟩
    have hpr := preparesCall_symbol hz ha hbl sym
    have hs := passed_put ((marshalCode (ofArguments frame.size args) args).foldl
      execute .blank) .unknown (by decide : Register.rax ∉ Register.arguments)
    rw [← hs]
    simpa [Transfer.code, execute_zero] using hpr

theorem events_call : blank.events ((Piece.call transfer args).items frame) = [.call ⟨callee, handed args⟩] ∧
      ((Piece.call transfer args).items frame).foldl step .blank = .blank :=
  (preparesCall_callCode frame h).events

end TagAsm.Select
