import TagAsm.Proofs.Phases

/-!
# What is emitted for a subroutine

The code of a subroutine in terms of what a machine sees of it: straight code under the labels of the first phases, then for
each block its label, the comments of its statements and its way out, then straight code that leaves. No label stands there
twice, so a jump to a label goes to the one place where it was put.
-/

namespace TagAsm.Select

open Asm Abi SelectM List
open TagAsm.Flow (SubroutineId ValueId BlockId Block Body Terminator)

/-! ## Labels -/

variable {sym role : String}

/-- Different roles give different labels. -/
theorem localLabel_inj {other : String} : localLabel sym role = localLabel sym other ↔ role = other := by
  constructor
  · intro h
    have hl := congrArg String.toList h
    rw [toList_localLabel, toList_localLabel] at hl
    exact String.toList_inj.mp (append_cancel_left hl)
  · rintro rfl
    rfl

theorem localLabel_ne_self (sym role : String) : localLabel sym role ≠ sym := by
  intro h
  have hl := congrArg (fun text : String => text.toList.length) h
  simp only [toList_localLabel, length_append, length_cons, length_nil] at hl
  omega

/-- Different blocks have different labels. -/
theorem blockLabel_inj {id other : BlockId} : blockLabel sym id = blockLabel sym other ↔ id = other := by
  rw [blockLabel, blockLabel, localLabel_inj]
  constructor
  · intro h
    have hl := congrArg String.toList h
    rw [String.toList_append, String.toList_append] at hl
    have hn := congrArg (fun digits => Nat.ofDigitChars 10 digits 0) (append_cancel_left hl)
    simpa [Nat.toString_eq_ofList_toDigits, Nat.ofDigitChars_toDigits] using hn
  · rintro rfl
    rfl

/-- The label of a block is not that of a phase. -/
theorem blockLabel_ne (h : role.toList.head? ≠ some 'b') (id : BlockId) : blockLabel sym id ≠ localLabel sym role := by
  intro heq
  rw [← localLabel_inj.mp heq, String.toList_append] at h
  exact h rfl

/-- Whether a label marks the code that was made from a line. -/
def isLineLabel (sym label : String) : Bool := (localLabel sym "line").toList.isPrefixOf label.toList

theorem isLineLabel_lineLabel (sym : String) (num : Nat) : isLineLabel sym (lineLabel sym num) = true := by
  rw [isLineLabel, isPrefixOf_iff_prefix, lineLabel, toList_localLabel, toList_localLabel, String.toList_append]
  exact ⟨(toString num).toList, by simp⟩

/-- A label marks a line if its role starts with that word. -/
theorem isLineLabel_localLabel (h : ¬['l', 'i', 'n', 'e'] <+: role.toList) : isLineLabel sym (localLabel sym role) = false := by
  rw [Bool.eq_false_iff]
  intro hl
  rw [isLineLabel, isPrefixOf_iff_prefix, toList_localLabel, toList_localLabel] at hl
  exact h ((prefix_append_right_inj _).mp hl)

theorem isLineLabel_blockLabel (sym : String) (id : BlockId) : isLineLabel sym (blockLabel sym id) = false := by
  refine isLineLabel_localLabel ?_
  rw [String.toList_append]
  rintro ⟨rest, hr⟩
  exact absurd (cons.inj hr).1 (by decide)

theorem isLineLabel_self (sym : String) : isLineLabel sym sym = false := by
  rw [Bool.eq_false_iff]
  intro hl
  rw [isLineLabel, isPrefixOf_iff_prefix, toList_localLabel] at hl
  have hln := hl.length_le
  simp only [length_append, length_cons, length_nil] at hln
  omega

/-! ## What a machine shows for a walk -/

/-- Marks that are not there for debug tables only. -/
def isVisible (sym : String) : Mark → Bool
  | .label name => !isLineLabel sym name
  | _ => true

/-- What a machine shows where the walk shows an event: the label of a block, the comment of a statement, the slot of a tested
value. -/
def eventMarks (cx : Context) (sym : String) (body : Body) (frame : Frame) : Flow.Event → List Mark
  | .block id => [.label (blockLabel sym id)]
  | .expression _ => []
  | .statement executed =>
    match cx.program.actionText body cx.colored executed.action with
    | .ok text => [.comment (Plain.strip text)]
    | .error _ => []
  | .test cond => ((frame.slot? cond).map Mark.test).toList

/-- What a machine shows before the first block. -/
def openingMarks (sym : String) : List Mark :=
  .label sym :: ["entry", "copy", "init"].map fun role => .label (localLabel sym role)

/-- What a machine shows after the last block. -/
def closingMarks (sym : String) (endsProcess : Bool) : List Mark :=
  ["deinit", "epilogue"].map (fun role => Mark.label (localLabel sym role)) ++ [if endsProcess then .exited else .returned]

/-! ## Blocks -/

/-- The marks of items that can be seen. -/
def visibleMarks (sym : String) (items : List Item) : List Mark := (items.flatMap Item.marks).filter (isVisible sym)

theorem visibleMarks_append (sym : String) (first rest : List Item) :
    visibleMarks sym (first ++ rest) = visibleMarks sym first ++ visibleMarks sym rest := by
  simp [visibleMarks]

theorem Steps.visibleMarks {items : List Item} (h : Steps items) (sym : String) : visibleMarks sym items = [] := by
  rw [Select.visibleMarks, h.marks]
  rfl

/-- The code of statements: straight, with no label but those of lines, and with a comment for each statement. -/
structure StatementsCode (cx : Context) (sym : String) (body : Body) (frame : Frame)
    (stmts : List Flow.Statement) (items : List Item) : Prop where
  straight : ∀ item ∈ items, item.isStraight = true
  lineLabels : ∀ name, Item.label name ∈ items → isLineLabel sym name = true
  visible : visibleMarks sym items = stmts.flatMap fun statement => eventMarks cx sym body frame (.statement statement)

/-- The way out of a block. -/
def TerminatorCode (sym : String) (frame : Frame) : Terminator → List Item → Prop
  | .branch cond positive negative, items => ∃ slot, frame.slot? cond = some slot ∧
    items = callDirect frame (Helper.unwrap .bool).symbol [.value slot]
      ++ Item.code (Instruction.branchIfSet .rax (blockLabel sym positive) (blockLabel sym negative))
  | .jump target, items => items = Item.code [.jmp (blockLabel sym target)]
  | .sink, items => items = Item.code [.jmp (localLabel sym "deinit")]

/-- The code of a block: its label, its statements, and its way out. -/
def BlockCode (cx : Context) (sym : String) (body : Body) (frame : Frame) (entry : BlockId × Block)
    (items : List Item) : Prop :=
  ∃ stmts term, items = .label (blockLabel sym entry.1) :: (stmts ++ term) ∧ StatementsCode cx sym body frame entry.2.statements stmts ∧
    TerminatorCode sym frame entry.2.terminator term

section

variable (cx : Context) (rt : Routine)

theorem statementCode_yields (num : Nat) (stmt : Flow.Statement) : Yields (statementCode cx rt num stmt)
      (StatementsCode cx rt.symbol rt.body rt.frame [stmt]) := by
  refine .bind (.lookUp _) fun text ht => .bind (actionCodeOrError_steps cx rt stmt) fun code hc =>
    .pure ?_
  have hl : ∀ item ∈ statementLabel cx rt.symbol num stmt, item = .label (lineLabel rt.symbol num) := by
    intro item hi
    rw [statementLabel] at hi
    split at hi
    · exact mem_singleton.mp hi
    · exact nomatch hi
  refine ⟨fun item hi => ?_, fun name hn => ?_, ?_⟩
  · rcases mem_append.mp hi with hi | hi
    · rcases mem_append.mp hi with hi | hi
      · rw [hl item hi]
        rfl
      · obtain rfl := mem_singleton.mp hi
        rfl
    · exact hc.isStraight item hi
  · rcases mem_append.mp hn with hn | hn
    · rcases mem_append.mp hn with hn | hn
      · rw [Item.label.inj (hl _ hn)]
        exact isLineLabel_lineLabel _ _
      · exact nomatch mem_singleton.mp hn
    · exact absurd hn (hc.label_not_mem name)
  · have hno : visibleMarks rt.symbol (statementLabel cx rt.symbol num stmt) = [] := by
      rw [statementLabel]
      split
      · simp [visibleMarks, Item.marks, isVisible, isLineLabel_lineLabel]
      · rfl
    rw [visibleMarks_append, visibleMarks_append, hno, hc.visibleMarks]
    simp [visibleMarks, Item.marks, isVisible, eventMarks, ht]

theorem statements_yields (stmts : List Flow.Statement) (start : Nat) :
    Yields (collect (fun (stmt, num) => statementCode cx rt num stmt) (stmts.zipIdx start))
      (StatementsCode cx rt.symbol rt.body rt.frame stmts) := by
  induction stmts generalizing start with
  | nil => exact .pure ⟨fun _ hi => (nomatch hi), fun _ hn => (nomatch hn), rfl⟩
  | cons stmt rest ih =>
    refine .bind (statementCode_yields cx rt start stmt) fun first hf =>
      .bind (ih (start + 1)) fun others ho => .pure ⟨?_, fun name hn => ?_, ?_⟩
    · exact forall_mem_append.mpr ⟨hf.straight, ho.straight⟩
    · rcases mem_append.mp hn with hn | hn
      · exact hf.lineLabels name hn
      · exact ho.lineLabels name hn
    · rw [visibleMarks_append, hf.visible, ho.visible]
      simp

theorem terminatorCode_yields (term : Terminator) : Yields (terminatorCode rt term) (TerminatorCode rt.symbol rt.frame term) := by
  cases term with
  | branch cond pos neg =>
    refine .bind (.require _ _) fun arg ha => .bind (callHelper_yields _ _ _) fun unwrap hu => .pure ?_
    obtain ⟨slot, hs, rfl⟩ := Option.map_eq_some_iff.mp ha
    exact ⟨slot, hs, by rw [hu]⟩
  | jump tgt => exact .pure rfl
  | sink => exact .pure rfl

theorem blockCode_yields (id : BlockId) (block : Block) (start : Nat) : Yields (blockCode cx rt id block start)
      (BlockCode cx rt.symbol rt.body rt.frame (id, block)) := by
  rw [blockCode_eq]
  exact .bind (statements_yields cx rt block.statements start) fun stmts hs =>
    .bind (terminatorCode_yields rt block.terminator) fun term ht => .pure ⟨stmts, term, rfl, hs, ht⟩

/-- The code of blocks is the code of each, one after the other. -/
theorem blocksCode_yields : ∀ (start : Nat) (entries : List (BlockId × Block)),
    Yields (blocksCode cx rt start entries) (fun items => ∃ codes, items = codes.flatten ∧
      Forall₂ (BlockCode cx rt.symbol rt.body rt.frame) entries codes)
  | _, [] => .pure ⟨[], rfl, .nil⟩
  | start, (id, block) :: rest => by
    refine .bind (blockCode_yields cx rt id block start) fun first hf =>
      .bind (blocksCode_yields (start + block.statements.length) rest) fun others ho => .pure ?_
    obtain ⟨codes, rfl, hc⟩ := ho
    exact ⟨first :: codes, by simp, .cons hf hc⟩

end

/-! ## Subroutines -/

/-- The first phases: straight code that starts at the symbol, with the labels of the phases. -/
structure OpeningCode (sym : String) (items : List Item) : Prop where
  head : ∃ rest, items = .exported sym :: .label sym :: rest ∧ Item.label sym ∉ rest
  straight : ∀ item ∈ items, item.isStraight = true
  labels : ∀ name, Item.label name ∈ items → name = sym ∨ ∃ role ∈ ["entry", "copy", "init"], name = localLabel sym role
  visible : visibleMarks sym items = openingMarks sym

/-- The code that leaves: steps, and then the return or the system call. -/
def LeavingCode (endsProcess : Bool) (items : List Item) : Prop :=
  ∃ steps, Steps steps ∧ items = steps ++ Item.code (if endsProcess then Instruction.exitProcess else [.ret])

/-- The last phases: steps under the labels of the phases, then the code that leaves. -/
def ClosingCode (sym : String) (endsProcess : Bool) (items : List Item) : Prop :=
  ∃ drops leave, Steps drops ∧ LeavingCode endsProcess leave ∧
    items = .label (localLabel sym "deinit") :: (drops ++ .label (localLabel sym "epilogue") ::
      (leave ++ [.label (localLabel sym "exit")]))

/-- The code of a subroutine: the first phases, the blocks in their order, and the last phases. -/
def SubroutineCode (cx : Context) (sym : String) (body : Body) (frame : Frame) (endsProcess : Bool)
    (items : List Item) : Prop :=
  ∃ head codes tail, items = head ++ (codes.flatten ++ tail) ∧ OpeningCode sym head ∧
    List.Forall₂ (BlockCode cx sym body frame) body.blocks.entries codes ∧ ClosingCode sym endsProcess tail

section

variable (cx : Context) (frame : Frame)
include cx

theorem copyCode_steps (records : List (ValueId × Slot)) : Yields (copyCode frame records) (fun res => Steps res.1) := by
  have hc := fun kept => (copyCode_selects frame records False.elim : Selects cx kept _ _ (.lenient cx))
  refine Selects.yields fun kept => (hc kept).imp fun res _ hr => ?_
  obtain ⟨-, ⟨pieces, -, hp⟩, -⟩ := hr
  exact hp ▸ steps_piecesCode frame pieces

theorem defaults_steps (body : Body) (ids : List ValueId) : Yields (collect (defaultCode cx frame body) ids) Steps := by
  have hd := fun kept => (collect_pieces_selects frame ids fun _ _ _ => defaultCode_selects False.elim :
    Selects cx kept (collect (defaultCode cx frame body) ids) _ (.lenient cx))
  refine Selects.yields fun kept => (hd kept).imp fun res _ hr => ?_
  obtain ⟨⟨pieces, -, hp⟩, -⟩ := hr
  exact hp ▸ steps_piecesCode frame pieces

theorem dropCode_steps (ids : List ValueId) : Yields (dropCode frame ids) Steps := by
  have hd := fun kept => (dropCode_selects False.elim : Selects cx kept (dropCode frame ids) _ (.lenient cx))
  refine Selects.yields fun kept => (hd kept).imp fun res _ hr => ?_
  obtain ⟨⟨pieces, -, hp⟩, -⟩ := hr
  exact hp ▸ steps_piecesCode frame pieces

end

theorem steps_entryCode (sym : String) (layout : Layout) : ∃ steps, Steps steps ∧
    entryCode sym layout = .exported sym :: .label sym :: .label (localLabel sym "entry") :: steps := by
  refine ⟨_, steps_code ?_, rfl⟩
  refine forall_mem_append.mpr ⟨forall_mem_append.mpr ⟨forall_mem_append.mpr ⟨?_, ?_⟩, ?_⟩, ?_⟩
  · exact forall_mem_pair rfl rfl
  · split
    · exact forall_mem_singleton.mpr rfl
    · exact fun _ hop => (nomatch hop)
  · exact forall_mem_singleton.mpr rfl
  · intro op hop
    obtain ⟨⟨slot, reg⟩, -, rfl⟩ := mem_map.mp hop
    rfl

theorem openingCode (sym : String) (layout : Layout) {copy defaults : List Item} (hc : Steps copy) (hd : Steps defaults) :
    OpeningCode sym (entryCode sym layout ++ [.label (localLabel sym "copy")] ++ copy
      ++ [.label (localLabel sym "init")] ++ defaults) := by
  obtain ⟨steps, hs, he⟩ := steps_entryCode sym layout
  have hp : ∀ role ∈ ["entry", "copy", "init"], isLineLabel sym (localLabel sym role) = false := by
    intro role hr
    refine isLineLabel_localLabel ?_
    revert role
    decide
  rw [he]
  refine ⟨⟨_, rfl, ?_⟩, ?_, ?_, ?_⟩
  · simp [hs.label_not_mem, hc.label_not_mem, hd.label_not_mem, (localLabel_ne_self sym _).symm]
  · intro item hi
    simp only [cons_append, mem_cons, mem_append, not_mem_nil, or_false] at hi
    rcases hi with rfl | rfl | rfl | (((hi | rfl) | hi) | rfl) | hi
    · rfl
    · rfl
    · rfl
    · exact hs.isStraight item hi
    · rfl
    · exact hc.isStraight item hi
    · rfl
    · exact hd.isStraight item hi
  · intro name hn
    simp only [cons_append, mem_cons, mem_append, not_mem_nil, or_false, Item.label.injEq, reduceCtorEq,
      false_or, hs.label_not_mem, hc.label_not_mem, hd.label_not_mem] at hn
    rcases hn with rfl | rfl | rfl | rfl
    · exact Or.inl rfl
    · exact Or.inr ⟨"entry", by decide, rfl⟩
    · exact Or.inr ⟨"copy", by decide, rfl⟩
    · exact Or.inr ⟨"init", by decide, rfl⟩
  · simp [visibleMarks, Item.marks, hs.marks, hc.marks, hd.marks, isVisible, isLineLabel_self, hp, openingMarks]

/-- Whether a subroutine ends the process. -/
def Exit.endsProcess : Exit → Bool
  | .toCaller => false
  | .ofProcess _ => true

theorem exitItems_yields (cx : Context) (frame : Frame) (returnValue : ValueId) (exit : Exit) :
    Yields (exitItems frame returnValue exit) (LeavingCode exit.endsProcess) := by
  have hl := fun kept => (exitItems_selects False.elim exit : Selects cx kept (exitItems frame returnValue exit) _ (.lenient cx))
  have hp (pieces : List Piece) {op : Instruction} (hop : op.isStep = true) :
      LeavingCode true (piecesCode frame pieces ++ Item.code (op :: Instruction.exitProcess)) :=
    ⟨piecesCode frame pieces ++ Item.code [op], (steps_piecesCode frame pieces).append (steps_code (forall_mem_singleton.mpr hop)),
      (append_assoc _ (Item.code [op]) _).symm⟩
  refine Selects.yields fun kept => (hl kept).imp fun items _ hi => ?_
  cases hi.1 with
  | toCaller =>
    refine ⟨Item.code [.movq (.quad .rbp) (.quad .rsp), .popq .rbp], steps_code ?_, rfl⟩
    exact forall_mem_pair rfl rfl
  | withCode kind hs => exact hp _ rfl
  | withoutCode => exact hp _ rfl

variable (cx : Context) (id : SubroutineId) (sub : Flow.Subroutine)

/-- The entry subroutine of a program ends the process, and no other does. -/
theorem exitOf_yields : Yields (exitOf cx id sub) (fun exit => exit.endsProcess = decide (cx.program.entry = some id)) := by
  unfold exitOf
  split
  · rename_i he
    exact .next fun code => .pure (by simp [Exit.endsProcess, he])
  · rename_i he
    exact .pure (by simp [Exit.endsProcess, he])

/-- What is emitted for a subroutine has the shape that is described here. -/
theorem subroutineCode_yields (body : Body) (sym : String) : Yields (subroutineCode cx id sub body sym) (fun res =>
      SubroutineCode cx sym body res.2 (decide (cx.program.entry = some id)) res.1) := by
  refine .bind (exitOf_yields cx id sub) fun exit he => .next fun words =>
    .bind (copyCode_steps cx _ _) fun ⟨copy, frame⟩ hcp =>
    .bind (defaults_steps cx frame body _) fun defaults hd =>
    .bind (blocksCode_yields cx ⟨id, sym, body, frame, (layoutOf body words).scratch⟩ 0 _) fun blocks hb =>
    .bind (dropCode_steps cx frame _) fun drops hdr =>
    .bind (exitItems_yields cx _ _ _) fun leave hl => .pure ?_
  obtain ⟨codes, rfl, hc⟩ := hb
  refine ⟨_, codes, _, ?_, openingCode sym (layoutOf body words) hcp hd, hc, drops, leave, hdr, he ▸ hl, rfl⟩
  simp

end TagAsm.Select
