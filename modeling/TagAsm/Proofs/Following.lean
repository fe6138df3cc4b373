import TagAsm.Proofs.Emission

/-!
# The code follows the graph

A machine in the code of a subroutine and a walk through its body go side by side: whenever the walk is in front of a block,
the machine is in front of the block's label, and has shown what the walk has shown. Nothing jumps to the block where the body
is entered; the code in front of the blocks runs into the first one, and that is the entry because every compiled body starts
with it.
-/

namespace TagAsm.Select

open Asm Abi SelectM List Machine Item Instruction
open TagAsm.Flow (SubroutineId BlockId Block Body Terminator Walk)

/-! ## Where labels are -/

/-- The part with this number, and what is around it. -/
theorem flatten_eq_of_getElem? {α : Type} {parts : List (List α)} {i : Nat} {part : List α} (h : parts[i]? = some part) :
    parts.flatten = (parts.take i).flatten ++ (part ++ (parts.drop (i + 1)).flatten) := by
  obtain ⟨hi, rfl⟩ := List.getElem?_eq_some_iff.mp h
  calc parts.flatten
    _ = (parts.take i ++ parts.drop i).flatten := by rw [take_append_drop]
    _ = _ := by rw [flatten_append, drop_eq_getElem_cons hi, flatten_cons]

theorem label_not_mem_code (ops : List Instruction) (name : String) : label name ∉ code ops := by
  intro hmem
  obtain ⟨op, -, heq⟩ := mem_map.mp hmem
  exact nomatch heq

section

variable {cx : Context} {sym : String} {body : Body} {frame : Frame} {endsProcess : Bool} {items : List Item}

theorem TerminatorCode.label_not_mem {term : Terminator} (h : TerminatorCode sym frame term items)
    (name : String) : label name ∉ items := by
  cases term with
  | branch cond pos neg =>
    obtain ⟨slot, -, rfl⟩ := h
    intro hmem
    rcases mem_append.mp hmem with hmem | hmem
    · exact (steps_callDirect _ _ _).label_not_mem name hmem
    · exact label_not_mem_code _ name hmem
  | jump | sink =>
    obtain rfl := h
    exact label_not_mem_code _ name

/-- The first label in the code of a block is its own, and the others are those of lines. -/
theorem BlockCode.labels {entry : BlockId × Block} (h : BlockCode cx sym body frame entry items) :
    ∃ rest, items = .label (blockLabel sym entry.1) :: rest ∧ ∀ name, label name ∈ rest → isLineLabel sym name = true := by
  obtain ⟨stmts, term, rfl, hs, ht⟩ := h
  refine ⟨_, rfl, fun name hn => ?_⟩
  rcases mem_append.mp hn with hn | hn
  · exact hs.lineLabels name hn
  · exact absurd hn (ht.label_not_mem name)

/-- The first label of the last phases is that of the first of them. -/
theorem ClosingCode.labels (h : ClosingCode sym endsProcess items) : ∃ rest, items = .label (localLabel sym "deinit") :: rest ∧
      ∀ name, label name ∈ rest → ∃ role ∈ ["epilogue", "exit"], name = localLabel sym role := by
  obtain ⟨drops, leave, hd, ⟨steps, hs, rfl⟩, rfl⟩ := h
  refine ⟨_, rfl, fun name hn => ?_⟩
  simp only [mem_append, mem_cons, not_mem_nil, or_false, label.injEq, hd.label_not_mem,
    hs.label_not_mem, label_not_mem_code, false_or] at hn
  rcases hn with rfl | rfl
  · exact ⟨"epilogue", by decide, rfl⟩
  · exact ⟨"exit", by decide, rfl⟩

/-- What the labels of the last phases are not. -/
theorem ClosingCode.label_not_mem (h : ClosingCode sym endsProcess items) {name : String}
    (hn : ∀ role ∈ ["deinit", "epilogue", "exit"], name ≠ localLabel sym role) : label name ∉ items := by
  obtain ⟨rest, rfl, hl⟩ := h.labels
  intro hmem
  rcases mem_cons.mp hmem with heq | hmem
  · exact hn "deinit" (by decide) (label.inj heq)
  · obtain ⟨role, hr, heq⟩ := hl name hmem
    exact hn role (mem_cons_of_mem _ hr) heq

/-- What the labels of the first phases are not. -/
theorem OpeningCode.label_not_mem (h : OpeningCode sym items) {role : String}
    (hr : ∀ other ∈ ["entry", "copy", "init"], localLabel sym role ≠ localLabel sym other) :
    label (localLabel sym role) ∉ items := by
  intro hmem
  rcases h.labels _ hmem with heq | ⟨other, ho, heq⟩
  · exact localLabel_ne_self sym _ heq
  · exact hr other ho heq

/-- What the labels in the code of some of the blocks are not. -/
theorem label_not_mem_codes {codes parts : List (List Item)}
    (hc : Forall₂ (BlockCode cx sym body frame) body.blocks.entries codes) {name : String}
    (hln : isLineLabel sym name = false)
    (hps : ∀ part ∈ parts, ∃ index, codes[index]? = some part ∧ name ≠ blockLabel sym index) :
    label name ∉ parts.flatten := by
  intro hmem
  obtain ⟨part, hp, hmem⟩ := mem_flatten.mp hmem
  obtain ⟨index, hi, hn⟩ := hps part hp
  obtain ⟨⟨id, block⟩, he, hs⟩ := getElem?_of_forall₂ hc.flip hi
  obtain rfl : id = index := by
    simp only [Table.entries, getElem?_map, getElem?_zipIdx, Option.map_map, Option.map_eq_some_iff] at he
    obtain ⟨_, -, heq⟩ := he
    simpa using (Prod.mk.inj heq).1.symm
  obtain ⟨rest, rfl, hl⟩ := BlockCode.labels hs
  rcases mem_cons.mp hmem with heq | hmem
  · exact hn (label.inj heq)
  · exact Bool.false_ne_true (hln.symm.trans (hl name hmem))

/-- The code of a block stands behind that of the blocks before it, and its label stands nowhere else. -/
theorem ofLabel_blockLabel {head tail : List Item} {codes : List (List Item)} (hh : OpeningCode sym head)
    (hc : Forall₂ (BlockCode cx sym body frame) body.blocks.entries codes)
    (ht : ClosingCode sym endsProcess tail) {id : BlockId} {block : Block} (hb : body.blocks[id]? = some block) :
    ∃ code, codes[id]? = some code ∧ BlockCode cx sym body frame (id, block) code ∧
      Point.ofLabel (head ++ (codes.flatten ++ tail)) (blockLabel sym id) = .item (head ++ (codes.take id).flatten).length := by
  have hen : body.blocks.entries[id]? = some (id, block) := by simp [Table.entries, hb]
  obtain ⟨code, hcd, hs⟩ := getElem?_of_forall₂ hc hen
  have hl := isLineLabel_blockLabel sym id
  have hf : label (blockLabel sym id) ∉ head := by
    refine hh.label_not_mem fun role hrl => blockLabel_ne ?_ id
    revert role
    decide
  have hls : label (blockLabel sym id) ∉ tail := by
    refine ht.label_not_mem fun role hrl => blockLabel_ne ?_ id
    revert role
    decide
  have he : label (blockLabel sym id) ∉ (codes.take id).flatten := by
    refine label_not_mem_codes hc hl fun part hp => ?_
    obtain ⟨index, hi⟩ := getElem?_of_mem hp
    rw [getElem?_take, Option.ite_none_right_eq_some] at hi
    exact ⟨index, hi.2, fun heq => Nat.ne_of_gt hi.1 (blockLabel_inj.mp heq)⟩
  have hlr : label (blockLabel sym id) ∉ (codes.drop (id + 1)).flatten := by
    refine label_not_mem_codes hc hl fun part hp => ?_
    obtain ⟨index, hi⟩ := getElem?_of_mem hp
    rw [getElem?_drop] at hi
    exact ⟨id + 1 + index, hi, fun heq => Nat.ne_of_lt (Nat.lt_add_right index id.lt_succ_self) (blockLabel_inj.mp heq)⟩
  refine ⟨code, hcd, hs, ?_⟩
  obtain ⟨rest, rfl, hlb⟩ := hs.labels
  have hr : label (blockLabel sym id) ∉ rest := fun hmem =>
    Bool.false_ne_true (hl.symm.trans (hlb _ hmem))
  rw [flatten_eq_of_getElem? hcd, append_assoc, ← append_assoc, append_assoc _ _ tail]
  refine Point.ofLabel_append_cons ?_ ?_
  · exact fun hmem => (mem_append.mp hmem).elim hf he
  · simp only [append_eq, mem_append, not_or]
    exact ⟨hr, hlr, hls⟩

namespace SubroutineCode

variable (h : SubroutineCode cx sym body frame endsProcess items)
include h

/-- The code starts at the symbol and runs straight into the first block. -/
theorem opening_placed {block : Block} (hf : body.blocks[0]? = some block) :
    ∃ before code after, items = before ++ (code ++ after) ∧ Point.ofLabel items sym = .item before.length ∧
      (∀ item ∈ code, item.isStraight = true) ∧ visibleMarks sym code = openingMarks sym ∧
      Point.ofLabel items (blockLabel sym 0) = .item (before ++ code).length := by
  obtain ⟨head, codes, tail, rfl, hh, hc, ht⟩ := h
  obtain ⟨-, -, -, he⟩ := ofLabel_blockLabel hh hc ht hf
  obtain ⟨rest, rfl, hr⟩ := hh.head
  refine ⟨[.exported sym], .label sym :: rest, codes.flatten ++ tail, rfl, ?_, ?_, hh.visible, ?_⟩
  · have hex : label sym ∉ [exported sym] := by simp
    refine Point.ofLabel_append_cons hex ?_
    simp only [append_eq, mem_append, not_or]
    refine ⟨hr, label_not_mem_codes hc (isLineLabel_self sym) fun part hp => ?_, ht.label_not_mem ?_⟩
    · obtain ⟨index, hi⟩ := getElem?_of_mem hp
      exact ⟨index, hi, (localLabel_ne_self sym _).symm⟩
    · exact fun role _ => (localLabel_ne_self sym role).symm
  · exact fun item hit => hh.straight item (mem_cons_of_mem _ hit)
  · rw [he]
    simp

/-- The code of a block stands at its label. -/
theorem block_placed {id : BlockId} {block : Block} (hb : body.blocks[id]? = some block) :
    ∃ before code after, items = before ++ (code ++ after) ∧ Point.ofLabel items (blockLabel sym id) = .item before.length ∧
      BlockCode cx sym body frame (id, block) code := by
  obtain ⟨head, codes, tail, rfl, hh, hcs, ht⟩ := h
  obtain ⟨code, hc, hs, hp⟩ := ofLabel_blockLabel hh hcs ht hb
  refine ⟨head ++ (codes.take id).flatten, code, (codes.drop (id + 1)).flatten ++ tail, ?_, hp, hs⟩
  rw [flatten_eq_of_getElem? hc]
  simp

/-- The last phases stand at their label. -/
theorem closing_placed : ∃ before code, items = before ++ code ∧ Point.ofLabel items (localLabel sym "deinit") = .item before.length ∧
      ClosingCode sym endsProcess code := by
  obtain ⟨head, codes, tail, rfl, hh, hc, ht⟩ := h
  refine ⟨head ++ codes.flatten, tail, by simp, ?_, ht⟩
  obtain ⟨rest, rfl, hl⟩ := ht.labels
  rw [← append_assoc]
  refine Point.ofLabel_append_cons ?_ ?_
  · simp only [mem_append, not_or]
    have hr : ∀ other ∈ ["entry", "copy", "init"], localLabel sym "deinit" ≠ localLabel sym other := by
      simp [localLabel_inj]
    refine ⟨hh.label_not_mem hr, label_not_mem_codes hc (isLineLabel_localLabel (by decide)) fun part hp => ?_⟩
    obtain ⟨index, hi⟩ := getElem?_of_mem hp
    exact ⟨index, hi, (blockLabel_ne (by decide) index).symm⟩
  · intro hmem
    obtain ⟨role, hrl, heq⟩ := hl _ hmem
    have hr : "deinit" ∉ ["epilogue", "exit"] := by decide
    exact hr (localLabel_inj.mp heq ▸ hrl)

end SubroutineCode

end

/-! ## Passing a block -/

/-- What instructions do to the registers, one after the other. -/
theorem foldl_effect_code (ops : List Instruction) (registers : Registers) :
    (code ops).foldl effect registers = ops.foldl Registers.execute registers := by
  rw [code, foldl_map]
  rfl

/-- The address of a value is brought into `rdi`. -/
theorem execute_loadInto (registers : Registers) (slot : Slot) :
    registers.execute ((Argument.value slot).loadInto .rdi) = { registers with rdi := .value slot } := by
  obtain ⟨off, byRef⟩ := slot
  cases byRef <;> rfl

/-- The call that takes the truth out of a value leaves it in `rax`. -/
theorem rax_unwrap (frame : Frame) (slot : Slot) (registers : Registers) :
    ((callDirect frame (Helper.unwrap .bool).symbol [.value slot]).foldl effect registers).rax = .truth slot := by
  let call := CallFrame.ofArguments frame.size [.value slot]
  have hc : frame.callCode [.value slot] [.call (.symbol (Helper.unwrap .bool).symbol)] =
      (if 0 < call.padding then [.subq call.padding .rsp] else []) ++ [(Argument.value slot).loadInto .rdi] ++
        [.call (.symbol (Helper.unwrap .bool).symbol)] ++ releaseCode call := by
    simp [Frame.callCode, Frame.marshal, Frame.release, marshalCode, Register.arguments, call]
  have hr : ∀ registers : Registers, ((releaseCode call).foldl Registers.execute registers).rax = registers.rax := by
    intro registers
    rw [releaseCode]
    split <;> rfl
  rw [callDirect, foldl_effect_code, hc, foldl_append, hr, foldl_append, foldl_append]
  simp only [foldl_cons, foldl_nil]
  rw [execute_loadInto]
  rfl

section

variable {cx : Context} {sym : String} {body : Body} {frame : Frame} {endsProcess : Bool} {items : List Item}
  (oracle : Nat → Bool)

/-- What there is to see of a machine, apart from labels that are there for debug tables only. -/
structure View where
  point : Point
  tests : Nat
  marks : List Mark

/-- What there is to see of this machine. -/
def view (sym : String) (machine : Machine) : View :=
  ⟨machine.point, machine.tests, machine.marks.filter (isVisible sym)⟩

variable {before code after : List Item} {machine : Machine}

theorem view_iterate_of_isStraight (sym : String) (hi : items = before ++ (code ++ after))
    (hc : ∀ item ∈ code, item.isStraight = true) (hp : machine.point = .item before.length) :
    view sym ((step items oracle)^[code.length] machine) =
      ⟨.item (before ++ code).length, machine.tests, (view sym machine).marks ++ visibleMarks sym code⟩ := by
  rw [iterate_step_of_isStraight oracle hi hc hp]
  simp [view, visibleMarks]

/-- Where the code goes on after a block: at the label of the next one, or with the last phases. -/
def nextPoint (items : List Item) (sym : String) : Option BlockId → Point
  | some id => .ofLabel items (blockLabel sym id)
  | none => .ofLabel items (localLabel sym "deinit")

/-- Asks whether the value in a slot is true, and tests the answer. -/
def conditionCode (frame : Frame) (slot : Slot) : List Item :=
  callDirect frame (Helper.unwrap .bool).symbol [.value slot]
    ++ Item.code [⟨.test, some .byte, [.register .rax .byte, .register .rax .byte]⟩]

theorem steps_conditionCode (frame : Frame) (slot : Slot) : Steps (conditionCode frame slot) :=
  (steps_callDirect _ _ _).append (steps_code (forall_mem_singleton.mpr rfl))

/-- After that the flags are about the value. -/
theorem flags_conditionCode (frame : Frame) (slot : Slot) (registers : Registers) :
    ((conditionCode frame slot).foldl effect registers).flags = .truth slot := by
  rw [conditionCode, foldl_append]
  exact rax_unwrap frame slot registers

/-- The way out of a block goes where the terminator goes, and tests what it tests. -/
theorem pass_terminator (cx : Context) (body : Body) {term : Terminator} (hi : items = before ++ (code ++ after))
    (hc : TerminatorCode sym frame term code) (hp : machine.point = .item before.length) :
    ∃ k, 0 < k ∧ view sym ((Machine.step items oracle)^[k] machine) = ⟨nextPoint items sym (term.follow (oracle machine.tests)),
        machine.tests + term.condition?.toList.length,
        (view sym machine).marks ++ term.condition?.toList.flatMap fun cond =>
          eventMarks cx sym body frame (.test cond)⟩ := by
  cases term with
  | jump | sink =>
    obtain rfl := hc
    refine ⟨1, Nat.one_pos, ?_⟩
    rw [Function.iterate_one, Machine.step_of_jmp oracle machine hi hp]
    simp [view, nextPoint, Terminator.follow, Terminator.condition?]
  | branch cond pos neg =>
    obtain ⟨slot, hsl, rfl⟩ := hc
    have hf : items = before ++ (conditionCode frame slot ++ (.instruction ⟨.jne, none, [.symbol (blockLabel sym pos)]⟩ ::
          .instruction (.jmp (blockLabel sym neg)) :: after)) := by
      simp [hi, conditionCode, Item.code, Instruction.branchIfSet]
    have hrun := Machine.iterate_step_of_isStraight oracle hf (steps_conditionCode frame slot).isStraight hp
    have hfl := flags_conditionCode frame slot machine.registers
    generalize (conditionCode frame slot).foldl Item.effect machine.registers = registers at hrun hfl
    rw [(steps_conditionCode frame slot).marks, append_nil] at hrun
    have hjne := hf
    rw [← append_assoc] at hjne
    have hs := Machine.step_of_jne oracle ⟨_, registers, machine.tests, machine.marks⟩ hjne rfl hfl
    have hm : eventMarks cx sym body frame (.test cond) = [.test slot] := by simp [eventMarks, hsl]
    cases ho : oracle machine.tests with
    | true =>
      refine ⟨(conditionCode frame slot).length + 1, Nat.succ_pos _, ?_⟩
      rw [Function.iterate_succ_apply', hrun, hs]
      simp [view, nextPoint, Terminator.follow, Terminator.condition?, ho, hm, isVisible]
    | false =>
      refine ⟨(conditionCode frame slot).length + 1 + 1, Nat.succ_pos _, ?_⟩
      have hjmp : items = (before ++ conditionCode frame slot ++ [.instruction ⟨.jne, none, [.symbol (blockLabel sym pos)]⟩]) ++
          .instruction (.jmp (blockLabel sym neg)) :: after := by
        simp [hf]
      rw [Function.iterate_succ_apply', Function.iterate_succ_apply', hrun, hs,
        Machine.step_of_jmp oracle _ hjmp (by simp [ho, Nat.add_assoc])]
      simp [view, nextPoint, Terminator.follow, Terminator.condition?, hm, isVisible]

/-- What a machine shows for a block. -/
theorem eventMarks_events (cx : Context) (sym : String) (body : Body) (frame : Frame) (id : BlockId) (block : Block) :
    (block.events id).flatMap (eventMarks cx sym body frame) = .label (blockLabel sym id) ::
        ((block.statements.flatMap fun stmt => eventMarks cx sym body frame (.statement stmt)) ++
          block.terminator.condition?.toList.flatMap fun cond =>
            eventMarks cx sym body frame (.test cond)) := by
  have he : (block.expressions.map Flow.Event.expression).flatMap (eventMarks cx sym body frame) = [] := by
    simp [flatMap_map, eventMarks]
  rw [Block.events, flatMap_cons, flatMap_append, flatMap_append, he, flatMap_map, flatMap_map]
  rfl

/-- The code of a block shows what the walk shows when it passes the block, and goes where the walk goes. -/
theorem pass_block (h : SubroutineCode cx sym body frame endsProcess items) {id : BlockId} {block : Block}
    (hb : body.blocks[id]? = some block) (hpn : machine.point = .ofLabel items (blockLabel sym id)) :
    ∃ k, 0 < k ∧ view sym ((step items oracle)^[k] machine) = ⟨nextPoint items sym (block.terminator.follow (oracle machine.tests)),
        machine.tests + block.terminator.condition?.toList.length,
        (view sym machine).marks ++ (block.events id).flatMap (eventMarks cx sym body frame)⟩ := by
  obtain ⟨before, code, after, hi, hp, stmts, term, rfl, hs, ht⟩ := h.block_placed hb
  have hf : items = before ++ ((.label (blockLabel sym id) :: stmts) ++ (term ++ after)) := by
    simp [hi]
  have hst : ∀ item ∈ .label (blockLabel sym id) :: stmts, item.isStraight = true := forall_mem_cons.mpr ⟨rfl, hs.straight⟩
  have hrun := view_iterate_of_isStraight oracle sym hf hst (hpn.trans hp)
  generalize hmd : (step items oracle)^[(.label (blockLabel sym id) :: stmts).length] machine = mid at hrun
  have hv : visibleMarks sym (.label (blockLabel sym id) :: stmts) = .label (blockLabel sym id) :: visibleMarks sym stmts := by
    simp [visibleMarks, Item.marks, isVisible, isLineLabel_blockLabel]
  have hts : mid.tests = machine.tests := congrArg View.tests hrun
  have hm : (view sym mid).marks = (view sym machine).marks ++ _ := congrArg View.marks hrun
  rw [← append_assoc] at hf
  obtain ⟨k, hk, hl⟩ := pass_terminator oracle cx body hf ht (congrArg View.point hrun)
  refine ⟨k + (.label (blockLabel sym id) :: stmts).length, Nat.add_pos_left hk _, ?_⟩
  rw [Function.iterate_add_apply, hmd, hl, hts, hm, hv, hs.visible, eventMarks_events]
  simp

/-- The code that leaves does so, and shows how. -/
theorem pass_leaving (sym : String) {leave : List Item} (hi : items = before ++ (leave ++ after))
    (hl : LeavingCode endsProcess leave) (hp : machine.point = .item before.length) :
    ∃ k, 0 < k ∧ view sym ((step items oracle)^[k] machine) =
      ⟨.outside, machine.tests, (view sym machine).marks ++ [if endsProcess then .exited else .returned]⟩ := by
  obtain ⟨steps, hst, rfl⟩ := hl
  cases endsProcess with
  | false =>
    have hs : items = before ++ (steps ++ .instruction .ret :: after) := by simp [hi, code]
    have hrun := iterate_step_of_isStraight oracle hs hst.isStraight hp
    rw [← append_assoc] at hs
    refine ⟨steps.length + 1, Nat.succ_pos _, ?_⟩
    rw [Function.iterate_succ_apply', hrun, hst.marks, step_of_ret oracle _ hs rfl]
    simp [view, isVisible]
  | true =>
    have hsp : Steps (steps ++ code [.movq (.immediate exitCall) (.quad .rax)]) := hst.append (steps_code (forall_mem_singleton.mpr rfl))
    have hs : items = before ++ ((steps ++ code [.movq (.immediate exitCall) (.quad .rax)]) ++
        .instruction ⟨.syscall, none, []⟩ :: after) := by
      simp [hi, code, exitProcess]
    have hrun := iterate_step_of_isStraight oracle hs hsp.isStraight hp
    have hrax : ((steps ++ code [.movq (.immediate exitCall) (.quad .rax)]).foldl effect machine.registers).rax = .number exitCall := by
      rw [foldl_append]
      rfl
    rw [← append_assoc] at hs
    refine ⟨(steps ++ code [.movq (.immediate exitCall) (.quad .rax)]).length + 1, Nat.succ_pos _, ?_⟩
    rw [Function.iterate_succ_apply', hrun, hsp.marks, step_of_syscall oracle _ hs rfl hrax]
    simp [view, isVisible]

/-- The last phases leave the code, and show how. -/
theorem pass_closing (h : SubroutineCode cx sym body frame endsProcess items)
    (hpn : machine.point = .ofLabel items (localLabel sym "deinit")) :
    ∃ k, 0 < k ∧ view sym ((step items oracle)^[k] machine) =
      ⟨.outside, machine.tests, (view sym machine).marks ++ closingMarks sym endsProcess⟩ := by
  obtain ⟨before, code, hi, hpl, drops, leave, hd, hl, rfl⟩ := h.closing_placed
  let straight := .label (localLabel sym "deinit") :: (drops ++ [.label (localLabel sym "epilogue")])
  have hst : ∀ item ∈ straight, item.isStraight = true :=
    forall_mem_cons.mpr ⟨rfl, forall_mem_append.mpr ⟨hd.isStraight, forall_mem_singleton.mpr rfl⟩⟩
  have hv : visibleMarks sym straight = ["deinit", "epilogue"].map fun role => .label (localLabel sym role) := by
    have hp : ∀ role ∈ ["deinit", "epilogue"], isLineLabel sym (localLabel sym role) = false := by
      intro role hr
      refine isLineLabel_localLabel ?_
      revert role
      decide
    simp [visibleMarks, straight, Item.marks, hd.marks, isVisible, hp]
  have hs : items = before ++ (straight ++ (leave ++ [.label (localLabel sym "exit")])) := by simp [hi, straight]
  have hrun := view_iterate_of_isStraight oracle sym hs hst (hpn.trans hpl)
  generalize hmd : (step items oracle)^[straight.length] machine = mid at hrun
  have ht : mid.tests = machine.tests := congrArg View.tests hrun
  have hm : (view sym mid).marks = (view sym machine).marks ++ _ := congrArg View.marks hrun
  rw [← append_assoc] at hs
  obtain ⟨k, hk, hout⟩ := pass_leaving oracle sym hs hl (congrArg View.point hrun)
  refine ⟨k + straight.length, Nat.add_pos_left hk _, ?_⟩
  rw [Function.iterate_add_apply, hmd, hout, ht, hm, hv, closingMarks, append_assoc]

end

/-! ## Side by side -/

section

variable {cx : Context} {sym : String} {body : Body} {frame : Frame} {endsProcess : Bool} {items : List Item}

/-- What there is to see of the machine when the walk has come this far. -/
def viewAt (cx : Context) (sym : String) (body : Body) (frame : Frame) (endsProcess : Bool) (items : List Item)
    (walk : Walk) : View where
  point := match walk.place with
    | .before id => .ofLabel items (blockLabel sym id)
    | .left _ => .outside
  tests := walk.tests
  marks := openingMarks sym ++ walk.events.flatMap (eventMarks cx sym body frame) ++ match walk.place with
    | .before _ => []
    | .left _ => closingMarks sym endsProcess

variable (h : SubroutineCode cx sym body frame endsProcess items)
include h

/-- When the walk passes a block, the machine does so as well, and if the walk leaves then so does the machine. -/
theorem exists_view_step (oracle : Nat → Bool) {walk : Walk} (hw : ∀ id, walk.place = .before id → id < body.blocks.length)
    {machine : Machine} (hv : view sym machine = viewAt cx sym body frame endsProcess items walk) :
    ∃ k, 0 < k ∧ view sym ((Machine.step items oracle)^[k] machine) =
      viewAt cx sym body frame endsProcess items (walk.step body.blocks oracle) := by
  obtain ⟨place, tests, events⟩ := walk
  have ht : machine.tests = tests := congrArg View.tests hv
  have hm := congrArg View.marks hv
  have hpn := congrArg View.point hv
  cases place with
  | left id =>
    refine ⟨1, Nat.one_pos, ?_⟩
    rw [Function.iterate_one, Machine.step_of_outside oracle hpn, Walk.step_of_left rfl, hv]
  | before id =>
    have hb : body.blocks[id]? = some (body.blocks.get ⟨id, hw id rfl⟩) := getElem?_eq_getElem (hw id rfl)
    generalize body.blocks.get ⟨id, hw id rfl⟩ = block at hb
    obtain ⟨k, hk, hp⟩ := pass_block oracle h hb hpn
    rw [Walk.step_of_before rfl hb]
    cases hf : block.terminator.follow (oracle tests) with
    | some next =>
      refine ⟨k, hk, ?_⟩
      rw [hp, ht, hm, hf]
      simp [viewAt, Walk.pass, hf, nextPoint]
    | none =>
      rw [ht, hm, hf] at hp
      generalize hmd : (Machine.step items oracle)^[k] machine = mid at hp
      obtain ⟨l, -, hout⟩ := pass_closing oracle h (congrArg View.point hp)
      refine ⟨l + k, Nat.add_pos_right l hk, ?_⟩
      have ht' : mid.tests = tests + _ := congrArg View.tests hp
      have hm' := congrArg View.marks hp
      rw [Function.iterate_add_apply, hmd, hout, ht', hm']
      simp [viewAt, Walk.pass, hf]

/-- However far the walk has come, the machine gets there. -/
theorem exists_view_walk (hw : body.Wired) (he : body.entry = 0) (oracle : Nat → Bool) (n : Nat) :
    ∃ m, n ≤ m ∧ view sym ((Machine.step items oracle)^[m] (Machine.start items sym)) =
      viewAt cx sym body frame endsProcess items (body.walk oracle n) := by
  induction n with
  | zero =>
    have hf : body.blocks[0]? = some (body.blocks.get ⟨0, he ▸ hw.entry_lt⟩) := getElem?_eq_getElem _
    obtain ⟨before, code, after, hi, hs, hst, hvs, hb⟩ := h.opening_placed hf
    refine ⟨code.length, Nat.zero_le _, ?_⟩
    rw [view_iterate_of_isStraight oracle sym hi hst hs, hvs, ← hb]
    simp [viewAt, Body.walk, he, view, Machine.start]
  | succ n ih =>
    obtain ⟨m, hm, hv⟩ := ih
    obtain ⟨k, hk, hn⟩ := exists_view_step h oracle (hw.walk_place oracle n).1 hv
    refine ⟨k + m, by omega, ?_⟩
    rw [Function.iterate_add_apply, hn, Body.walk_succ]

end

/-- What the code of a subroutine is meant to show, read off the walk through its body: the first phases, what the walk shows,
and once the walk is over the last phases and the way out. -/
def followedRun (cx : Context) (sym : String) (body : Body) (frame : Frame) (endsProcess : Bool)
    (oracle : Nat → Bool) : Run Mark := fun steps =>
  let progress := body.run oracle steps
  ⟨openingMarks sym ++ progress.events.flatMap (eventMarks cx sym body frame) ++
    if progress.ended then closingMarks sym endsProcess else [], progress.ended⟩

/-- That is what there is to see of the machine when it is where the walk is. -/
theorem followedRun_eq {body : Body} (hw : body.Wired) (cx : Context) (sym : String) (frame : Frame)
    (endsProcess : Bool) (items : List Item) (oracle : Nat → Bool) (n : Nat) :
    followedRun cx sym body frame endsProcess oracle n = ⟨(viewAt cx sym body frame endsProcess items (body.walk oracle n)).marks,
        (viewAt cx sym body frame endsProcess items (body.walk oracle n)).point = .outside⟩ := by
  have hs := (hw.walk_place oracle n).2
  cases hp : (body.walk oracle n).place with
  | before id => simp [followedRun, Body.run, viewAt, hp, Point.ofLabel]
  | left id => simp [followedRun, Body.run, viewAt, hp, hs id hp]

/-- Selected code follows the body. For every subroutine of a compiled program for which code is selected, a machine that is
started at the symbol passes the first phases, then the labels of blocks, the comments of statements and the tests in the order
of the walk, whatever the tests find; and it leaves, through the last phases, exactly if the walk is over: by the exit call in
the entry subroutine, and to the caller in the others. -/
theorem agree_run_subroutineCode (options : Options) (source : Source.Program) (diagnostics after : Diagnostics)
    (context : Context) (id : SubroutineId) (subroutine : Flow.Subroutine) (body : Body) (symbol : String)
    (kept kept' : Selection) (items : List Item) (frame : Frame)
    (hprogram : (compileToFlow options source).run.run diagnostics = .ok (.ok context.program, after))
    (hsubroutine : context.program.subroutines[id]? = some subroutine) (hbody : subroutine.kind = .defined body)
    (hitems : (subroutineCode context id subroutine body symbol).run.run kept = .ok (.ok (items, frame), kept'))
    (oracle : Nat → Bool) :
    ((Machine.run items symbol oracle).only (isVisible symbol)).Agree
      (followedRun context symbol body frame (context.program.entry = some id) oracle) := by
  obtain ⟨lowered, hlower, hmerge⟩ := lowerProgram_of_compileToFlow_eq_ok hprogram
  have hwell := (Lower.wellFormed_of_lowerProgram hlower hmerge).bodies id subroutine body hsubroutine hbody
  have hcode := subroutineCode_yields context id subroutine body symbol _ _ _ hitems
  refine (Run.agree_of_catchUp ((Machine.steady_run oracle items symbol).only _) fun n => ?_).symm
  obtain ⟨m, hm, hview⟩ := exists_view_walk hcode hwell.wired hwell.entry_eq oracle n
  refine ⟨m, Or.inl hm, ?_⟩
  rw [followedRun_eq hwell.wired context symbol frame _ items, ← hview]
  rfl

/-! ## An example -/

/-- Whether a step of selection comes to a result. -/
def SelectM.succeeds {α : Type} (step : SelectM α) (kept : Selection) : Bool :=
  match step.run.run kept with
  | .ok (.ok _, _) => true
  | _ => false

theorem SelectM.exists_of_succeeds {α : Type} {step : SelectM α} {kept : Selection} (h : step.succeeds kept = true) :
    ∃ res kept', step.run.run kept = .ok (.ok res, kept') := by
  unfold succeeds at h
  split at h
  · exact ⟨_, _, ‹_›⟩
  · exact nomatch h

/-- The body of the countdown after merging. -/
def countdownGraph : Body where
  returnValue := 0
  parameters := []
  locals := [1]
  temporaries := [2, 3, 4, 5, 6]
  values := ⟨0, none, 1⟩ :: ⟨1, some ⟨"x", .unknown⟩, 1⟩ :: [2, 3, 4, 5, 6].map fun id => ⟨id, none, 1⟩
  blocks := [⟨[], .branch 1 1 3, [0]⟩, ⟨[⟨.assign 2 (.literal 0), .unknown⟩, ⟨.operator .equal 3 [1, 2], .unknown⟩], .branch 3 3 2, [3]⟩,
    ⟨[⟨.operator .deref 4 [1], .unknown⟩, ⟨.operator .decrement 5 [1], .unknown⟩], .jump 0, [5]⟩,
    ⟨[⟨.member 6 1 1, .unknown⟩, ⟨.assign 0 (.value 6), .unknown⟩], .sink, [8]⟩]
  entry := 0
  sink := 3

/-- The subroutine with that body. -/
def countdownSubroutine : Flow.Subroutine := ⟨⟨"main", .unknown⟩, 0, .internal, none, .defined countdownGraph⟩

/-- The program that consists of that subroutine. -/
def countdownFlow : Flow.Program :=
  ⟨[], Lower.countdown.types, [], [countdownSubroutine], [0], [], [], [], [], [⟨0, 1, .int 3⟩, ⟨1, 1, .string "next"⟩], some 0⟩

/-- The code of the countdown follows its body. -/
theorem agree_run_subroutineCode_countdown : (compileToFlow .standard Lower.countdown).run.run [] = .ok (.ok countdownFlow, []) ∧
      ∃ items frame kept, (subroutineCode ⟨countdownFlow, true, false⟩ 0 countdownSubroutine countdownGraph "main").run.run
          ⟨⟨["main"], [], [], [], []⟩, [], [], []⟩ = .ok (.ok (items, frame), kept) ∧
        ∀ oracle, ((Machine.run items "main" oracle).only (isVisible "main")).Agree
          (followedRun ⟨countdownFlow, true, false⟩ "main" countdownGraph frame true oracle) := by
  have hprogram : (compileToFlow .standard Lower.countdown).run.run [] = .ok (.ok countdownFlow, []) := rfl
  have hselected : (subroutineCode ⟨countdownFlow, true, false⟩ 0 countdownSubroutine countdownGraph "main").succeeds
      ⟨⟨["main"], [], [], [], []⟩, [], [], []⟩ = true := by decide +kernel
  obtain ⟨⟨items, frame⟩, kept, hitems⟩ := SelectM.exists_of_succeeds hselected
  exact ⟨hprogram, items, frame, kept, hitems, fun oracle => agree_run_subroutineCode .standard Lower.countdown [] []
    ⟨countdownFlow, true, false⟩ 0 countdownSubroutine countdownGraph "main" _ kept items frame hprogram rfl rfl hitems oracle⟩

end TagAsm.Select
