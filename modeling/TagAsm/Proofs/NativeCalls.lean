import TagAsm.Proofs.Addresses
import TagAsm.Proofs.Regions
import TagAsm.Proofs.Tasks

/-!
# Native calls

A native call goes to several routines: some take a word out of each argument, then comes the native routine itself, and two more give
the result its new value. Here a machine executes the code that keeps track of its calls (`Caller`). What routines do is given from
outside. They give back the stack pointer and the frame pointer, and those that get one record leave the rest of the frame alone; all
else they may change (`Honours`). So the words have to be parked in the frame between the calls, and there they stay (`Unwrapped`).
-/

namespace TagAsm.Asm

open Abi List Processor

/-! ## A machine that keeps track of its calls -/

/-- One call: where it went, and what was known on arrival there and on departure. -/
structure Visit where
  target : Operand
  arrival : Processor
  departure : Processor

/-- What called routines do, after the calls so far. -/
abbrev Routines := List Visit → Operand → Processor → Processor

/-- A machine with the calls that it has made. -/
structure Caller where
  visits : List Visit
  now : Processor

namespace Caller

/-- Passes an item. -/
def step (routines : Routines) (addrs : String → Int) (c : Caller) : Item → Caller
  | .instruction ⟨.call, _, [tgt]⟩ =>
    ⟨c.visits ++ [⟨tgt, c.now, routines c.visits tgt c.now⟩], routines c.visits tgt c.now⟩
  | item => { c with now := c.now.step addrs item }

/-- Passes items. -/
def pass (routines : Routines) (addrs : String → Int) (c : Caller) (items : List Item) : Caller :=
  items.foldl (step routines addrs) c

variable {routines : Routines} {addrs : String → Int} {c : Caller}

theorem pass_append (first rest : List Item) :
    c.pass routines addrs (first ++ rest) = (c.pass routines addrs first).pass routines addrs rest :=
  foldl_append

/-- Without calls nothing is visited. -/
theorem pass_code {ops : List Instruction} (h : ∀ op ∈ ops, op.mnemonic ≠ .call) :
    c.pass routines addrs (Item.code ops) = { c with now := c.now.executeAll addrs ops } := by
  induction ops generalizing c with
  | nil => rfl
  | cons op rest ih =>
    obtain ⟨hop, hr⟩ := forall_mem_cons.mp h
    have hs : c.step routines addrs (.instruction op) = { c with now := c.now.execute addrs op } := by
      unfold step
      split
      · rename_i hi
        cases hi
        exact absurd rfl hop
      · rfl
    show (c.step routines addrs (.instruction op)).pass routines addrs (Item.code rest) = _
    rw [hs, ih hr]
    rfl

end Caller

/-- A routine that gets one record: the entry of a table that ends a value's life, or a helper that takes the word out of a value. -/
def takesRecord (tgt : Operand) : Bool :=
  tgt ∈ Operand.displaced .r11 Operation.drop.offset :: Primitive.all.map fun kind => .symbol (Helper.unwrap kind).symbol

/-- The word at this address is no part of the record at that one. -/
def Outside (addr record : Int) : Prop := addr + 8 ≤ record ∨ record + valueSize ≤ addr

/-- The routine gives back the stack pointer and the frame pointer. If it gets one record, it changes nothing else between the two. -/
structure Visit.Honours (visit : Visit) : Prop where
  stack : visit.departure.registers .rsp = visit.arrival.registers .rsp
  frame : visit.departure.registers .rbp = visit.arrival.registers .rbp
  memory : ∀ top base record addr : Int, takesRecord visit.target = true → visit.arrival.registers .rsp = some top →
    visit.arrival.registers .rbp = some base → visit.arrival.registers .rdi = some record → top ≤ addr → addr + 8 ≤ base →
    Outside addr record → visit.departure.memory addr = visit.arrival.memory addr

/-- All routines do as they are bound to. -/
def Routines.Honour (routines : Routines) : Prop :=
  ∀ visits tgt p, Visit.Honours ⟨tgt, p, routines visits tgt p⟩

/-! ## Whole calls -/

/-- The frame pointer and the stack pointer. -/
structure Processor.Stands (p : Processor) (base top : Int) : Prop where
  frame : p.registers .rbp = some base
  stack : p.registers .rsp = some top

/-- What may stand between the arguments and the call: one of two registers is set. -/
def Prepares (addrs : String → Int) (prepare : List Instruction) : Prop :=
  (∀ op ∈ prepare, op.mnemonic ≠ .call) ∧
    ∀ p : Processor, ∃ reg ∈ [Register.rax, .r11], ∃ word, p.executeAll addrs prepare = p.put reg word

/-- A whole call leads from one state to another and makes one visit. -/
structure Visited (addrs : String → Int) (prepare : List Instruction) (tgt : Operand) (args : List Argument)
    (base top : Int) (c later : Caller) (visit : Visit) : Prop where
  visits : later.visits = c.visits ++ [visit]
  target_eq : visit.target = tgt
  prepared : ∃ p : Processor, visit.arrival = p.executeAll addrs prepare
  passed : ∀ (place : Nat) (arg : Argument) (reg : Register), args[place]? = some arg →
    Register.arguments[place]? = some reg → visit.arrival.registers reg = arg.denotes addrs c.now
  /-- On arrival the frame is as it was. -/
  arrived : ∀ addr, top ≤ addr → visit.arrival.memory addr = c.now.memory addr
  departed : later.now = visit.departure.put .rsp (some top)
  stands : later.now.Stands base top
  kept : ∀ record addr, takesRecord tgt = true → visit.arrival.registers .rdi = some record → top ≤ addr →
    addr + 8 ≤ base → Outside addr record → later.now.memory addr = c.now.memory addr

section

variable {routines : Routines} {addrs : String → Int} {c later : Caller} {base top : Int} {args : List Argument}
  {prepare : List Instruction}

theorem visited_callCode (hro : routines.Honour) (frame : Frame) (hp : Prepares addrs prepare) (tgt : Operand)
    (hst : c.now.Stands base top) (har : ∀ arg ∈ args, arg.ReadsAbove (top - base)) :
    ∃ visit, Visited addrs prepare tgt args base top c
      (c.pass routines addrs (Item.code (frame.callCode args (prepare ++ [.call tgt])))) visit := by
  have hm : Marshalled addrs c.now top (.ofArguments frame.size args) args _ :=
    marshalled_executeAll hst.frame hst.stack (CallFrame.dvd_ofArguments _ _).2.1 rfl har
  generalize hq : c.now.executeAll addrs (marshalCode (.ofArguments frame.size args) args) = m at hm
  obtain ⟨reg, hr, word, hput⟩ := hp.2 m
  have ho : ∀ other ∉ [Register.rax, .r11], (m.put reg word).registers other = m.registers other :=
    fun other ho => registers_put_of_ne _ _ (ne_of_mem_of_not_mem hr ho).symm
  let visit : Visit := ⟨tgt, m.put reg word, routines c.visits tgt (m.put reg word)⟩
  have hh : visit.Honours := hro c.visits tgt _
  have hs : visit.arrival.registers .rsp = some (top - (CallFrame.ofArguments frame.size args).total) :=
    (ho .rsp (by decide)).trans hm.stack
  have hf : visit.arrival.registers .rbp = some base := (ho .rbp (by decide)).trans (hm.frame.trans hst.frame)
  have hn := CallFrame.total_nonneg frame.size args
  have hc : Item.code (frame.callCode args (prepare ++ [.call tgt])) =
      Item.code (marshalCode (.ofArguments frame.size args) args) ++ Item.code prepare ++ [.instruction (.call tgt)]
        ++ Item.code (releaseCode (.ofArguments frame.size args)) := by
    simp [Item.code, Frame.callCode, Frame.marshal, Frame.release]
  have hrun : c.pass routines addrs (Item.code (frame.callCode args (prepare ++ [.call tgt]))) =
      ⟨c.visits ++ [visit], visit.departure.put .rsp (some top)⟩ := by
    rw [hc, Caller.pass_append, Caller.pass_append, Caller.pass_append,
      Caller.pass_code fun op hop => (Instruction.isQuiet_cases (isQuiet_marshalCode _ _ op hop)).1, hq, Caller.pass_code hp.1, hput,
      Caller.pass_code (forall_mem_releaseCode _ fun _ => Mnemonic.noConfusion)]
    exact congrArg (Caller.mk _) (executeAll_releaseCode hn (hh.stack.trans hs))
  rw [hrun]
  refine ⟨visit, rfl, rfl, ⟨m, hput.symm⟩, fun place arg tgt ha ht => ?_, hm.above, rfl, ⟨?_, registers_put_self _ _ _⟩,
    fun record addr hone hd htop hb hout => ?_⟩
  · have hd : ∀ tgt ∈ Register.arguments, tgt ∉ [Register.rax, .r11] := by decide
    exact (ho tgt (hd tgt (mem_of_getElem? ht))).trans (hm.registers place arg tgt ha ht)
  · exact (registers_put_of_ne _ _ (by decide)).trans (hh.frame.trans hf)
  · exact (hh.memory _ base record addr hone hs hf hd (by omega) hb hout).trans (hm.above addr htop)

/-- The address of a record arrives in the first register. -/
theorem Visited.rdi {tgt : Operand} {off : Int} {visit : Visit}
    (h : Visited addrs prepare tgt (.value ⟨off, false⟩ :: args) base top c later visit) (hst : c.now.Stands base top) :
    visit.arrival.registers .rdi = some (base + off) := by
  rw [h.passed 0 _ .rdi rfl rfl, Argument.denotes, hst.frame]
  rfl

end

end TagAsm.Asm

namespace TagAsm.Flow

open List

variable {declared : Nat} {returnValue res : ValueId} {callee : SubroutineId} {args : List ValueId} {loc : Location}
  {code : List Statement}

/-- The values of a call are not addresses. -/
theorem Sequenced.not_mem_references_of_call (h : Sequenced declared returnValue code)
    (hc : ⟨.call res callee args, loc⟩ ∈ code) : ∀ val ∈ res :: args, val ∉ references code := by
  intro val hv hr
  obtain ⟨before, after, rfl⟩ := append_of_mem hc
  have hf := h before _ after rfl
  rw [references_append] at hr
  rcases mem_append.mp hr with hb | ha
  · rcases mem_cons.mp hv with rfl | hv
    · exact (hf.result val rfl).2.1 (references_subset_mentions before hb)
    · exact (hf.passed val hv).1 hb
  · -- a later statement would make a value that the call mentions
    obtain ⟨stmt, hm, hs⟩ := mem_filterMap.mp ha
    rcases mem_cons.mp hm with rfl | hm
    · cases hs
    obtain ⟨mid, rest, rfl⟩ := append_of_mem hm
    have hl := h (before ++ ⟨.call res callee args, loc⟩ :: mid) stmt rest (by simp)
    refine (hl.result val (Statement.result?_of_reference hs)).2.1 (mem_flatMap.mpr ⟨⟨.call res callee args, loc⟩, ?_, hv⟩)
    simp

/-- The values of a call are owned by the body. -/
theorem Body.Ordered.call_owned {body : Body} {pool : Table Literal} (h : body.Ordered) (hsd : body.Sound pool)
    (hc : ⟨.call res callee args, loc⟩ ∈ Select.bodyStatements body) : res :: args ⊆ Select.ownedValues body := by
  intro val hv
  have hsq := h.sequenced_bodyStatements
  obtain ⟨id, block, hb, hs⟩ := Select.mem_bodyStatements.mp hc
  have hlt := (hsd.statements id block hb _ hs).values_lt val hv
  obtain ⟨before, after, hsp⟩ := append_of_mem hc
  have hf := hsq before _ after hsp
  refine mem_filter.mpr ⟨?_, decide_eq_true (hsq.not_mem_references_of_call hc val hv)⟩
  rcases mem_cons.mp hv with rfl | ha
  · exact mem_append_right _ (hsd.mem_temporaries_iff.mpr ⟨(hf.result val rfl).1, hlt⟩)
  · have hm : val ∈ body.returnValue :: (body.parameters ++ body.locals ++ body.temporaries) := hsd.values_eq ▸ mem_range.mpr hlt
    exact (mem_cons.mp hm).resolve_left (hf.passed val ha).2

end TagAsm.Flow

namespace TagAsm.Select

open Asm Abi SelectM List Processor
open TagAsm.Flow (SubroutineId ValueId Statement Subroutine Body)

/-! ## Taking words out of arguments -/

/-- The words were taken out of these values, whose records are at the given spots, and parked from the given place on. -/
structure Unwrapped (spot : ValueId → Int) (base top scratch : Int) (words start : Nat) (entries : List (ValueId × Primitive))
    (c later : Caller) (unwraps : List Visit) : Prop where
  visits : later.visits = c.visits ++ unwraps
  length_eq : unwraps.length = entries.length
  stands : later.now.Stands base top
  /-- What was parked before is still there. -/
  kept : ∀ place < start, later.now.memory (base + (scratch + 8 * place)) = c.now.memory (base + (scratch + 8 * place))
  /-- Each word is parked; above the parked words, only the records that were passed before can have changed when it is taken. -/
  each : ∀ place entry, entries[place]? = some entry → ∃ visit, unwraps[place]? = some visit ∧
    visit.target = .symbol (Helper.unwrap entry.2).symbol ∧ visit.arrival.registers .rdi = some (base + spot entry.1) ∧
    later.now.memory (base + (scratch + 8 * (start + place : Nat))) = visit.departure.registers .rax ∧
    ∀ addr, base + (scratch + 8 * words) ≤ addr → addr + 8 ≤ base →
      (∀ earlier ∈ entries.take place, Outside addr (base + spot earlier.1)) → visit.arrival.memory addr = c.now.memory addr

section

variable {routines : Routines} {addrs : String → Int} {base top scratch : Int} {words : Nat} {c : Caller}

/-- A call by name. -/
theorem visited_callDirect (hro : routines.Honour) (frame : Frame) (sym : String) {args : List Argument}
    (hst : c.now.Stands base top) (har : ∀ arg ∈ args, arg.ReadsAbove (top - base)) :
    ∃ visit, Visited addrs [] (.symbol sym) args base top c (c.pass routines addrs (callDirect frame sym args)) visit :=
  visited_callCode hro frame ⟨forall_mem_nil _, fun p => ⟨.rax, by decide, _, (p.put_self rfl).symm⟩⟩ _ hst har

/-- To keep what was returned is to store it in the frame. -/
theorem pass_storeResult (hst : c.now.Stands base top) (off : Int) :
    c.pass routines addrs (storeResult off) = { c with now := c.now.store (base + off) (c.now.registers .rax) } := by
  rw [storeResult, Caller.pass_code (forall_mem_singleton.mpr Mnemonic.noConfusion), executeAll_cons, executeAll_nil,
    execute_movq_frame hst.frame]

variable {spot : ValueId → Int}

/-- By induction on the entries: a call leaves alone what was parked before it, and the word that it returns is parked next to that. -/
theorem unwrapped_unwrapItems (addrs : String → Int) (hro : routines.Honour) (frame : Frame) (hlow : top ≤ base + scratch)
    (hh : scratch + 8 * words ≤ 0) (entries : List (ValueId × Primitive))
    (he : ∀ entry ∈ entries, scratch + 8 * words ≤ spot entry.1) (start : Nat) (hrm : start + entries.length ≤ words)
    (c : Caller) (hst : c.now.Stands base top) :
    ∃ unwraps, Unwrapped spot base top scratch words start entries c (c.pass routines addrs
      (unwrapItems frame scratch start (entries.map fun entry => (.value ⟨spot entry.1, false⟩, entry.2)))) unwraps := by
  induction entries generalizing start c with
  | nil => exact ⟨[], (append_nil _).symm, rfl, hst, fun _ _ => rfl, fun _ _ h => (nomatch h)⟩
  | cons entry rest ih =>
    obtain ⟨val, kind⟩ := entry
    obtain ⟨hv, hr⟩ := forall_mem_cons.mp he
    rw [length_cons] at hrm
    dsimp only at hv
    -- one call, whose result is parked
    have hra : ∀ arg ∈ [Argument.value ⟨spot val, false⟩], arg.ReadsAbove (top - base) := forall_mem_singleton.mpr trivial
    obtain ⟨visit, hvs⟩ : ∃ visit, Visited addrs [] _ _ _ _ c _ visit := visited_callDirect hro frame (Helper.unwrap kind).symbol hst hra
    have hone : takesRecord (.symbol (Helper.unwrap kind).symbol) = true := by cases kind <;> decide
    have hw : visit.departure.registers .rax = _ := hvs.departed ▸ (registers_put_of_ne _ _ (by decide)).symm
    rw [map_cons, unwrapItems, Caller.pass_append, Caller.pass_append, pass_storeResult hvs.stands]
    generalize c.pass routines addrs (callDirect frame (Helper.unwrap kind).symbol [.value ⟨spot val, false⟩]) = called at hvs hw ⊢
    have hm : ∀ addr, top ≤ addr → addr + 8 ≤ base → Outside addr (base + spot val) →
        addr + 8 ≤ base + (scratch + 8 * start) ∨ base + (scratch + 8 * start) + 8 ≤ addr →
        (called.now.store (base + (scratch + 8 * start)) (called.now.registers .rax)).memory addr = c.now.memory addr :=
      fun addr htop hb hout hap =>
        (memory_store_of_apart _ _ hap).trans (hvs.kept _ addr hone (hvs.rdi hst) htop hb hout)
    obtain ⟨unwraps, hu⟩ := ih hr (start + 1) (by omega) ⟨called.visits, called.now.store _ _⟩ ⟨hvs.stands.frame, hvs.stands.stack⟩
    refine ⟨visit :: unwraps, ?_, by simp [hu.length_eq], hu.stands, fun place hp => ?_, fun place entry hen => ?_⟩
    · rw [hu.visits, hvs.visits, append_assoc]
      rfl
    · rw [hu.kept place (by omega)]
      exact hm _ (by omega) (by omega) (Or.inl (by omega)) (by omega)
    · cases place with
      | zero =>
        cases hen
        refine ⟨visit, rfl, hvs.target_eq, hvs.rdi hst, ?_, fun addr ha _ _ => hvs.arrived addr (by omega)⟩
        exact (hu.kept start (Nat.lt_succ_self start)).trans ((memory_store_self _ _ _).trans hw.symm)
      | succ place =>
        obtain ⟨later, hl, ht, hd, hp, hi⟩ := hu.each place entry hen
        refine ⟨later, hl, ht, hd, ?_, fun addr ha hb hout => ?_⟩
        · rwa [Nat.add_right_comm, Nat.add_assoc] at hp
        · rw [take_succ_cons, forall_mem_cons] at hout
          exact (hi addr ha hb hout.2).trans (hm addr (by omega) hb hout.1 (by omega))

/-! ## Making the result -/

/-- The words of the record at this address are the same in both states. -/
def SameRecord (record : Int) (p q : Processor) : Prop :=
  ∀ addr, record ≤ addr → addr + 8 ≤ record + valueSize → p.memory addr = q.memory addr

/-- When a routine has returned, the value at this address is given up as the routine left it, with the entry of its own table, and is
made again from the word that was returned. -/
structure Rebuilt (record : Int) (kind : Primitive) (returned : Processor) (drop make : Visit) : Prop where
  drop_target : drop.target = .displaced .r11 Operation.drop.offset
  drop_table : drop.arrival.registers .r11 = drop.arrival.memory (record + tableOffset)
  drop_address : drop.arrival.registers .rdi = some record
  drop_record : SameRecord record drop.arrival returned
  make_target : make.target = .symbol (Helper.make kind).symbol
  make_address : make.arrival.registers .rdi = some record
  make_word : make.arrival.registers .rsi = returned.registers .rax

/-- The table of the value whose address is passed first. -/
def loadTable : List Instruction := [.movq (.displaced .rdi tableOffset) (.quad .r11)]

theorem executeAll_loadTable (p : Processor) :
    p.executeAll addrs loadTable = p.put .r11 (((p.registers .rdi).map (· + tableOffset)).bind p.memory) := rfl

/-- The end of a value's life. -/
theorem visited_dropValue (hro : routines.Honour) (frame : Frame) (off : Int) (hst : c.now.Stands base top) :
    ∃ visit, Visited addrs loadTable (.displaced .r11 Operation.drop.offset) [.value ⟨off, false⟩] base top c
      (c.pass routines addrs (dropValue frame (.value ⟨off, false⟩))) visit := by
  have ht : operationTransfer .drop .rdi = loadTable ++ [.call (.displaced .r11 Operation.drop.offset)] := by decide
  rw [dropValue, callOperation, ht]
  exact visited_callCode hro frame ⟨forall_mem_singleton.mpr Mnemonic.noConfusion, fun p => ⟨.r11, by decide, _, executeAll_loadTable p⟩⟩
    _ hst (forall_mem_singleton.mpr trivial)

theorem rebuilt_wrapItems (hro : routines.Honour) (frame : Frame) (hlow : top ≤ base + scratch) (hw : 0 < words)
    (hh : scratch + 8 * words ≤ 0) {off : Int} (ho : scratch + 8 * words ≤ off) (kind : Primitive)
    (hst : c.now.Stands base top) {later : Caller}
    (hl : later = c.pass routines addrs (wrapItems frame scratch (.value ⟨off, false⟩) (some kind))) :
    ∃ drop make, later.visits = c.visits ++ [drop, make] ∧ later.now.Stands base top ∧ Rebuilt (base + off) kind c.now drop make := by
  rw [hl, wrapItems, Caller.pass_append, Caller.pass_append, pass_storeResult hst]
  have hps : (c.now.store (base + scratch) (c.now.registers .rax)).Stands base top := ⟨hst.frame, hst.stack⟩
  obtain ⟨drop, hd⟩ : ∃ drop, Visited addrs _ _ _ base top ⟨c.visits, c.now.store (base + scratch) (c.now.registers .rax)⟩ _ drop :=
    visited_dropValue hro frame off hps
  generalize Caller.pass routines addrs _ (dropValue frame (.value ⟨off, false⟩)) = dropped at hd ⊢
  have hra : ∀ arg ∈ [Argument.value ⟨off, false⟩, .load scratch], arg.ReadsAbove (top - base) :=
    forall_mem_cons.mpr ⟨trivial, forall_mem_singleton.mpr (by change top - base ≤ scratch; omega)⟩
  obtain ⟨make, hm⟩ : ∃ make, Visited addrs _ _ _ base top dropped _ make :=
    visited_callDirect hro frame (Helper.make kind).symbol hd.stands hra
  have hrdi := hd.rdi hps
  refine ⟨drop, make, ?_, hm.stands, hd.target_eq, ?_, hrdi, fun addr ha _ => ?_, hm.target_eq, hm.rdi hd.stands, ?_⟩
  · rw [hm.visits, hd.visits, append_assoc]
    rfl
  · obtain ⟨p, harrival⟩ := hd.prepared
    rw [harrival, executeAll_loadTable] at hrdi ⊢
    rw [registers_put_of_ne _ _ (by decide)] at hrdi
    rw [registers_put_self, memory_put, hrdi]
    rfl
  · exact (hd.arrived addr (by omega)).trans (memory_store_of_apart _ _ (Or.inr (by omega)))
  · rw [hm.passed 1 (.load scratch) .rsi rfl rfl, Argument.denotes, hd.stands.frame]
    exact (hd.kept _ (base + scratch) (by decide) hrdi hlow (by omega) (Or.inl (by omega))).trans (memory_store_self _ _ _)

/-! ## Whole native calls -/

/-- The records of these values lie at the given spots in the frame, above this distance from the frame pointer, and apart from each
other. -/
structure HoldsRecords (frame : Frame) (limit : Int) (vals : List ValueId) (spot : ValueId → Int) : Prop where
  slot : ∀ val ∈ vals, frame.slot? val = some ⟨spot val, false⟩
  inside : ∀ val ∈ vals, limit ≤ spot val ∧ spot val + valueSize ≤ 0
  apart : ∀ val ∈ vals, ∀ other ∈ vals, val ≠ other → spot val + valueSize ≤ spot other ∨ spot other + valueSize ≤ spot val

/-- For each argument, a routine for the kind of its parameter takes a word out of its record, and the native routine gets the word.
Nothing changed the record before, unless the same value was passed before. -/
def PassesWords (cx : Context) (spot : ValueId → Int) (base : Int) (before : Processor) (params : List TypeId)
    (args : List ValueId) (unwraps : List Visit) (native : Visit) : Prop :=
  ∀ (place : Nat) (arg : ValueId) (ty : TypeId), args[place]? = some arg → params[place]? = some ty →
    ∃ kind unwrap reg, nativeKind cx ty = .ok (some kind) ∧ unwraps[place]? = some unwrap ∧
      Register.arguments[place]? = some reg ∧ unwrap.target = .symbol (Helper.unwrap kind).symbol ∧
      unwrap.arrival.registers .rdi = some (base + spot arg) ∧
      native.arrival.registers reg = unwrap.departure.registers .rax ∧
      (arg ∉ args.take place → SameRecord (base + spot arg) unwrap.arrival before)

/-- What happens with the result when a native routine has returned. -/
inductive KeepsResult (cx : Context) (record : Int) (ty : TypeId) (native : Visit) : List Visit → Prop
  | void (hvoid : cx.program.types.isVoid ty = .ok true) : KeepsResult cx record ty native []
  | scalar {kind : Primitive} {drop make : Visit} (hvoid : cx.program.types.isVoid ty = .ok false)
      (hkind : nativeKind cx ty = .ok (some kind)) (hrebuilt : Rebuilt record kind native.departure drop make) :
      KeepsResult cx record ty native [drop, make]

/-- A whole native call: the native routine gets the words of its arguments, and is told that there are no others; and the result is
kept. -/
structure CallsNative (cx : Context) (spot : ValueId → Int) (base top : Int) (params : List TypeId) (ret : TypeId)
    (sym : String) (res : ValueId) (args : List ValueId) (c later : Caller) (unwraps : List Visit) (native : Visit)
    (wraps : List Visit) : Prop where
  visits : later.visits = c.visits ++ unwraps ++ (native :: wraps)
  target : native.target = .symbol sym
  arguments_length : args.length = params.length
  unwraps_length : unwraps.length = params.length
  words : PassesWords cx spot base c.now params args unwraps native
  rax : native.arrival.registers .rax = some 0
  keeps : KeepsResult cx (base + spot res) ret native wraps
  stands : later.now.Stands base top

section

variable {cx : Context} {rt : Routine} {res : ValueId} {callee : SubroutineId} {sub : Subroutine}
  {args : List ValueId} {syms : SymbolTable} {parts : NativeParts}
  (hp : parts.Of cx rt res callee sub args syms)
  (hrc : HoldsRecords rt.frame (parts.scratch + 8 * words) (res :: args) spot)
include hp hrc

theorem passesWords_of_unwrapped {prepare : List Instruction} {tgt : Operand} {parked returned : Caller} {unwraps : List Visit}
    {native : Visit} (hu : Unwrapped spot base top parts.scratch words 0 (args.zip parts.kinds) c parked unwraps)
    (hn : Visited addrs prepare tgt (parkedWords parts.scratch parts.kinds.length) base top parked returned native) :
    PassesWords cx spot base c.now parts.parameters args unwraps native := by
  intro place arg ty ha hty
  obtain ⟨kind, hk, hnk⟩ := getElem?_of_forall₂ hp.kinds hty
  have hpl := (List.getElem?_eq_some_iff.mp hk).1
  obtain ⟨unwrap, hun, ht, hrdi, hpk, hi⟩ := hu.each place (arg, kind) (getElem?_zip_eq_some.mpr ⟨ha, hk⟩)
  have hreg := getElem?_eq_getElem (lt_of_lt_of_le (hp.kinds.length_eq ▸ hpl) hp.fits)
  have hpw : (parkedWords parts.scratch parts.kinds.length)[place]? = some (.load (parts.scratch + 8 * place)) := by
    rw [parkedWords, getElem?_map, getElem?_range hpl]
    rfl
  refine ⟨kind, unwrap, _, hnk, hun, hreg, ht, hrdi, ?_, fun hnew addr hl hh => ?_⟩
  · rw [hn.passed place _ _ hpw hreg, Argument.denotes, hu.stands.frame, ← hpk, Nat.zero_add]
    rfl
  · have hmem := mem_cons_of_mem res (mem_of_getElem? ha)
    obtain ⟨hlow, hhigh⟩ := hrc.inside arg hmem
    refine hi addr (by omega) (by omega) fun earlier he => ?_
    -- an earlier argument is another value, whose record is elsewhere
    rw [zip, take_zipWith] at he
    have hearlier := (of_mem_zip he).1
    have hapart := hrc.apart arg hmem earlier.1 (mem_cons_of_mem _ (mem_of_mem_take hearlier)) (ne_of_mem_of_not_mem hearlier hnew).symm
    unfold Outside
    omega

/-- The code of the parts makes a native call. -/
theorem NativeParts.Of.callsNative (hro : routines.Honour) (hlow : top ≤ base + parts.scratch)
    (hw : max parts.parameters.length 1 ≤ words) (hst : c.now.Stands base top) :
    ∃ unwraps native wraps, CallsNative cx spot base top parts.parameters parts.returnType parts.symbol res args c
      (c.pass routines addrs (parts.items rt.frame)) unwraps native wraps := by
  obtain ⟨hroom, hpos⟩ := Nat.max_le.mp hw
  obtain ⟨hlimit, hin⟩ := hrc.inside res mem_cons_self
  have hsz : (0 : Int) < valueSize := by decide
  have hlen : (args.zip parts.kinds).length = parts.parameters.length := by
    rw [length_zip, hp.count, hp.kinds.length_eq, Nat.min_self]
  have hspot : ∀ val ∈ res :: args, ∀ arg, IsValue rt.frame val arg → Argument.value ⟨spot val, false⟩ = arg := by
    rintro val hv arg ⟨slot, hs, rfl⟩
    exact congrArg Argument.value (Option.some.inj ((hrc.slot val hv).symm.trans hs))
  have hvl : args.map (fun val => Argument.value ⟨spot val, false⟩) = parts.values := by
    rw [← forall₂_eq_eq_eq, forall₂_map_left_iff]
    exact forall₂_imp_of_mem hp.values fun val hv => hspot val (mem_cons_of_mem _ hv)
  have hz : parts.values.zip parts.kinds =
      (args.zip parts.kinds).map fun entry => (.value ⟨spot entry.1, false⟩, entry.2) := hvl ▸ zip_map_left
  have hra : ∀ arg ∈ parkedWords parts.scratch parts.kinds.length, arg.ReadsAbove (top - base) := by
    intro arg ha
    obtain ⟨place, -, rfl⟩ := mem_map.mp ha
    change top - base ≤ parts.scratch + 8 * place
    omega
  rw [NativeParts.items, Caller.pass_append, Caller.pass_append, hz]
  obtain ⟨unwraps, hu⟩ := unwrapped_unwrapItems addrs hro rt.frame hlow (by omega) (args.zip parts.kinds)
    (fun entry he => (hrc.inside entry.1 (mem_cons_of_mem _ (of_mem_zip he).1)).1) 0 (by omega) c hst
  obtain ⟨native, hn⟩ : ∃ native, Visited addrs [.zero .rax] _ _ _ _ _ (Caller.pass _ _ _
      (Item.code (rt.frame.callCode _ [.zero .rax, .call _]))) native :=
    visited_callCode hro rt.frame ⟨forall_mem_singleton.mpr Mnemonic.noConfusion, fun p => ⟨.rax, by decide, _, rfl⟩⟩
      (.symbol parts.symbol) hu.stands hra
  have hwords := passesWords_of_unwrapped hp hrc hu hn
  have hrax : native.arrival.registers .rax = some 0 := hn.prepared.elim fun _ ha => ha ▸ rfl
  have hvs := hn.visits
  rw [hu.visits] at hvs
  generalize Caller.pass _ _ _ (Item.code _) = returned at hn hvs ⊢
  have hret := hp.returned
  cases hk : parts.returned with
  | none =>
    rw [hk] at hret
    exact ⟨unwraps, native, [], hvs, hn.target_eq, hp.count, hu.length_eq.trans hlen, hwords, hrax, .void hret, hn.stands⟩
  | some kind =>
    rw [hk] at hret
    rw [← hspot res mem_cons_self _ hp.result]
    obtain ⟨drop, make, hwr, hs, hrb⟩ := rebuilt_wrapItems hro rt.frame hlow hpos (by omega) hlimit kind hn.stands rfl
    refine ⟨unwraps, native, [drop, make], ?_, hn.target_eq, hp.count, hu.length_eq.trans hlen, hwords, hrax, .scalar hret.1 hret.2 ?_, hs⟩
    · rw [hwr, hvs, append_assoc]
      rfl
    · -- to release the arguments changes the stack pointer only
      rw [hn.departed] at hrb
      exact { hrb with make_word := hrb.make_word.trans (registers_put_of_ne _ _ (by decide)) }

end

end

/-- The records of values that a body owns lie above the words for native calls, and apart. -/
theorem Orderly.exists_holdsRecords {body : Body} (h : Orderly body) {words : Nat} {scratch : Int}
    (hsc : (layoutOf body words).scratch = some scratch) {vals : List ValueId} (hv : vals ⊆ ownedValues body) :
    ∃ spot, HoldsRecords (withRecords (layoutOf body words).frame (layoutOf body words).records) (scratch + 8 * words) vals
      spot := by
  choose! spot _ hs using fun val (hv : val ∈ ownedValues body) => h.slot?_owned words hv
  have hm : (ownedValues body).map spot = (ownedSlots body).map Slot.offset := by
    rw [← forall₂_eq_eq_eq, forall₂_map_left_iff, forall₂_map_right_iff]
    exact forall₂_imp_of_mem (h.distinct.ownedSlots h.references words) fun val hv slot hsl =>
      congrArg Slot.offset (Option.some.inj ((hs val hv).symm.trans hsl))
  have hn : ((ownedValues body).map spot).Nodup := hm ▸ nodup_offsets_ownedSlots body
  have hsp : ∀ val ∈ vals, ⟨spot val, valueSize⟩ ∈ slotSpans body := fun val hvl =>
    mem_map_of_mem (mem_bodySlots (hs val (hv hvl)))
  obtain ⟨-, hb⟩ := (scratch_span hsc).bounds (mem_singleton_self _)
  refine ⟨spot, fun val hvl => hs val (hv hvl), fun val hvl => ?_, fun val hvl other ho hne => ?_⟩
  · obtain ⟨hl, hh⟩ := (stacked_slotSpans body).bounds (hsp val hvl)
    exact ⟨le_trans hb hl, hh⟩
  · exact (stacked_slotSpans body).apart (hsp val hvl) (hsp other ho) fun he =>
      hne (inj_on_of_nodup_map hn (hv hvl) (hv ho) (congrArg Span.offset he))

/-- Routines that leave nothing in the registers that they may use but the number of calls before them. -/
def forgetful : Routines := fun visits _ p =>
  { p with registers := fun reg =>
      if reg = .rsp ∨ reg = .rbp then p.registers reg else if reg = .rax then some visits.length else none }

theorem honour_forgetful : forgetful.Honour := fun _ _ _ => ⟨rfl, rfl, fun _ _ _ _ _ _ _ _ _ _ _ => rfl⟩

end TagAsm.Select
