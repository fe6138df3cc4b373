import TagAsm.Proofs.Validation

/-!
# What subroutines become

Between the labels of a subroutine lie pieces of code: one call for each parameter that is copied, for each value that gets its
default and for each value that is given up in the end. The blocks between them are woven from labels, comments, jumps and the
deeds of their statements (`Woven`), and `Phases` has the parts of a whole subroutine in their order. The code goes to blocks of its
own, and to the place where it leaves; every other name that it mentions is known. Besides its statements only the entry
subroutine can be refused, for its signature. Initializers, which are never refused, and the code that starts the process are
pieces between the instructions that open and close a frame.
-/

namespace TagAsm.Select

open Asm Abi SelectM List
open TagAsm.Flow (SubroutineId ValueId Subroutine Body Block BlockId ClassLayout)

/-! ## Names of the code itself -/

/-- The places within a subroutine that its own code goes to. -/
def routineTargets (sym : String) (body : Body) : List String :=
  localLabel sym "deinit" :: body.blocks.ids.map (blockLabel sym)

/-- All names that the code mentions are known, or are among those given. -/
def Covered (cx : Context) (here : List String) (items : List Item) (kept : Selection) : Prop :=
  ∀ name ∈ codeNames items, Knows cx kept name ∨ name ∈ here

section

variable {cx : Context} {kept later : Selection} {here : List String} {items : List Item}

theorem CodeKnown.covered (h : CodeKnown cx items kept) : Covered cx here items kept := fun name hn => Or.inl (h name hn)

theorem Covered.append {first rest : List Item} (hf : Covered cx here first kept) (hr : Covered cx here rest kept) :
    Covered cx here (first ++ rest) kept := by
  intro name hn
  rw [codeNames_append] at hn
  rcases mem_append.mp hn with hn | hn
  · exact hf name hn
  · exact hr name hn

theorem Covered.mono (h : Covered cx here items kept) (hnt : Notes cx kept later) : Covered cx here items later := by
  intro name hn
  rcases h name hn with hk | hh
  · exact Or.inl (hnt.knows hk)
  · exact Or.inr hh

theorem covered_of_eq_nil (h : codeNames items = []) : Covered cx here items kept := CodeKnown.covered (AllKnown.of_eq_nil h)

end

/-! ## Blocks -/

/-- What the code of blocks is put together from. -/
inductive Woven (cx : Context) (rt : Routine) (words : Nat) (syms : SymbolTable) : List Item → Prop where
  | nil : Woven cx rt words syms []
  | comment (text : String) : Woven cx rt words syms [.comment text]
  | line (num : Nat) : Woven cx rt words syms [.label (lineLabel rt.symbol num)]
  | block (id : BlockId) : Woven cx rt words syms [.label (blockLabel rt.symbol id)]
  | deed {pieces : List Piece} (h : Deed cx rt words syms pieces) : Woven cx rt words syms (piecesCode rt.frame pieces)
  | jump (tgt : BlockId) : Woven cx rt words syms (Item.code [.jmp (blockLabel rt.symbol tgt)])
  | branch (pos neg : BlockId) : Woven cx rt words syms
    (Item.code (Instruction.branchIfSet .rax (blockLabel rt.symbol pos) (blockLabel rt.symbol neg)))
  | leave : Woven cx rt words syms (Item.code [.jmp (localLabel rt.symbol "deinit")])
  | append {first rest : List Item} (hfirst : Woven cx rt words syms first)
    (hrest : Woven cx rt words syms rest) : Woven cx rt words syms (first ++ rest)

section

variable {cx : Context} {rt : Routine} {words : Nat} {syms later : SymbolTable}

theorem Woven.mono {items : List Item} (h : Woven cx rt words syms items) (hl : syms.Within later) : Woven cx rt words later items := by
  induction h with
  | nil => exact .nil
  | comment text => exact .comment text
  | line num => exact .line num
  | block id => exact .block id
  | deed hd => exact .deed (hd.mono hl)
  | jump tgt => exact .jump tgt
  | branch pos neg => exact .branch pos neg
  | leave => exact .leave
  | append _ _ ihfirst ihrest => exact .append ihfirst ihrest

theorem Deeds.woven {items : List Item} (h : Deeds cx rt words items syms) : Woven cx rt words syms items := by
  obtain ⟨deeds, rfl, hds⟩ := h
  induction deeds with
  | nil => exact .nil
  | cons deed rest ih =>
    rw [flatten_cons, piecesCode_append]
    obtain ⟨hd, hr⟩ := forall_mem_cons.mp hds
    exact .append (.deed hd) (ih hr)

end

/-- The code of blocks, which goes to blocks of the body if everything was provided. -/
def BlocksMade (cx : Context) (provided : Prop) (rt : Routine) (words : Nat) (items : List Item) (kept : Selection) : Prop :=
  Woven cx rt words kept.symbols items ∧ (provided → Covered cx (routineTargets rt.symbol rt.body) items kept)

section

variable {cx : Context} {kept later : Selection} {limits : Limits cx} {provided : Prop} {rt : Routine} {words : Nat}

theorem BlocksMade.nil : BlocksMade cx provided rt words [] kept := ⟨.nil, fun _ => covered_of_eq_nil rfl⟩

theorem BlocksMade.append {first rest : List Item} (hf : BlocksMade cx provided rt words first kept)
    (hr : BlocksMade cx provided rt words rest kept) : BlocksMade cx provided rt words (first ++ rest) kept :=
  ⟨.append hf.1 hr.1, fun hp => (hf.2 hp).append (hr.2 hp)⟩

theorem BlocksMade.mono {items : List Item} (h : BlocksMade cx provided rt words items kept) (hn : Notes cx kept later) :
    BlocksMade cx provided rt words items later :=
  ⟨h.1.mono hn.within, fun hp => (h.2 hp).mono hn⟩

theorem statementCode_selects {stmt : Flow.Statement} (hr : provided → rt.Ready cx) (hs : provided → stmt ∈ bodyStatements rt.body)
    (hw : ∀ n, nativeWords cx.program stmt = .ok n → n ≤ words) (num : Nat) :
    Selects cx kept (statementCode cx rt num stmt) (BlocksMade cx provided rt words)
      (.accepting provided (NotNative cx stmt.action)) := by
  refine .bind (.lookUp _) fun text _ _ ht => ?_
  refine .bind (actionCodeOrError_selects hr hs (fun _ id hid => lt_of_actionText ht hid) hw) fun code _ _ hc =>
    .pure (.append (.append ?_ ⟨.comment _, fun _ => covered_of_eq_nil rfl⟩) ⟨hc.1.woven, fun _ => hc.2.covered⟩)
  unfold statementLabel
  split
  · exact ⟨.line num, fun _ => covered_of_eq_nil rfl⟩
  · exact .nil

theorem terminatorCode_selects (words : Nat) {id : BlockId} {block : Block} (hr : limits.provided → rt.Ready cx)
    (hb : limits.provided → rt.body.blocks[id]? = some block) :
    Selects cx kept (terminatorCode rt block.terminator) (BlocksMade cx limits.provided rt words) limits := by
  have ht : limits.provided → ∀ tgt ∈ block.terminator.successors, blockLabel rt.symbol tgt ∈ routineTargets rt.symbol rt.body := by
    intro hp tgt ht
    have hlt := (hr hp).sound.wired.edges id tgt ⟨block, hb hp, ht⟩
    exact mem_cons_of_mem _ (mem_map.mpr ⟨tgt, mem_range.mpr hlt, rfl⟩)
  have hc := fun hp => (hr hp).sound.conditions id block (hb hp)
  revert ht hc
  cases block.terminator with
  | branch cond pos neg =>
    intro ht hc
    refine .bind (valueArgument_selects fun hp => (hr hp).frame.slots cond (hc hp cond rfl)) fun val _ _ hv => ?_
    refine .bind (callHelper_selects rt.frame _ _) fun unwrap _ _ ⟨hu, hh⟩ => .pure ?_
    subst hu
    have hm : Made cx rt words _ _ := made_help rfl hh (forall_mem_singleton.mpr hv.passable)
    refine .append ⟨hm.1.woven, fun _ => hm.2.covered⟩ ⟨.branch pos neg, fun hp name hn => Or.inr ?_⟩
    have hns : name = blockLabel rt.symbol pos ∨ name = blockLabel rt.symbol neg := by
      simpa [codeNames, Item.code, Item.names, Instruction.names, Instruction.branchIfSet, Instruction.jmp, Operand.name?] using hn
    rcases hns with rfl | rfl
    · exact ht hp pos (Flow.Terminator.mem_successors_branch.mpr (Or.inl rfl))
    · exact ht hp neg (Flow.Terminator.mem_successors_branch.mpr (Or.inr rfl))
  | jump tgt =>
    intro ht _
    refine .pure ⟨.jump tgt, fun hp name hn => Or.inr ?_⟩
    obtain rfl : name = blockLabel rt.symbol tgt := mem_singleton.mp hn
    exact ht hp tgt (mem_singleton_self tgt)
  | sink =>
    intro _ _
    refine .pure ⟨.leave, fun _ name hn => Or.inr ?_⟩
    obtain rfl : name = localLabel rt.symbol "deinit" := mem_singleton.mp hn
    exact mem_cons_self

theorem blockCode_selects {id : BlockId} {block : Block} (hr : provided → rt.Ready cx) (hb : provided → rt.body.blocks[id]? = some block)
    (hw : ∀ stmt ∈ block.statements, ∀ n, nativeWords cx.program stmt = .ok n → n ≤ words) (start : Nat) :
    Selects cx kept (blockCode cx rt id block start) (BlocksMade cx provided rt words) (.accepting provided (NotFunction cx)) := by
  rw [blockCode_eq]
  refine .bind (.collect (fun _ => .nil) (fun _ _ _ _ hn hf hrs => (hf.mono hn).append hrs) _
    fun entry he later _ => ?_ : Selects cx kept _ (BlocksMade cx provided rt words) _) fun stmts _ _ hc => ?_
  · have hmem : entry.1 ∈ block.statements := (mem_zipIdx he).2.2 ▸ getElem_mem _
    refine (statementCode_selects hr (fun hp => mem_bodyStatements.mpr ⟨id, block, hb hp, hmem⟩) (hw entry.1 hmem) entry.2).mono
      (fun _ _ h => h) fun _ _ h => ⟨h.1, fun hp ha => (h.2 hp ha).notFunction⟩
  refine .bind (terminatorCode_selects words hr hb) fun term last hn ht => .pure ?_
  have hl : BlocksMade cx provided rt words [.label (blockLabel rt.symbol id)] last := ⟨.block id, fun _ => covered_of_eq_nil rfl⟩
  exact hl.append ((hc.mono hn).append ht)

theorem blocksCode_selects (hr : provided → rt.Ready cx) (start : Nat) (entries : List (BlockId × Block))
    (he : provided → ∀ entry ∈ entries, rt.body.blocks[entry.1]? = some entry.2)
    (hw : ∀ entry ∈ entries, ∀ stmt ∈ entry.2.statements, ∀ n, nativeWords cx.program stmt = .ok n → n ≤ words) :
    Selects cx kept (blocksCode cx rt start entries) (BlocksMade cx provided rt words) (.accepting provided (NotFunction cx)) := by
  induction entries generalizing kept start with
  | nil => exact .pure .nil
  | cons entry rest ih =>
    obtain ⟨hb, hrs⟩ := forall_mem_cons.mp hw
    refine .bind (blockCode_selects hr (fun hp => he hp entry mem_cons_self) hb start) fun first _ _ hf => ?_
    refine .bind (ih _ (fun hp other ho => he hp other (mem_cons_of_mem _ ho)) hrs) fun others _ hn hos => ?_
    exact .pure ((hf.mono hn).append hos)

end

/-! ## Phases -/

/-- The pieces that copy parameters into their records: each from the slot that the parameter has by then. -/
inductive Copies : Frame → List (ValueId × Slot) → List Piece → Prop where
  | nil (frame : Frame) : Copies frame [] []
  | cons {frame : Frame} {param : ValueId} {record src : Slot} {rest : List (ValueId × Slot)} {pieces : List Piece}
    (hsource : frame.slot? param = some src) (hrest : Copies (frame.bind param record) rest pieces) :
    Copies frame ((param, record) :: rest) (.call (.operation .copy .rsi) [.value record, .value src] :: pieces)

/-- Where different parameters are copied from. -/
theorem Copies.forall₂ {frame : Frame} {records : List (ValueId × Slot)} {pieces : List Piece} (h : Copies frame records pieces)
    (hn : (records.map Prod.fst).Nodup) :
    Forall₂ (fun record piece => ∃ src, frame.slot? record.1 = some src ∧
      piece = .call (.operation .copy .rsi) [.value record.2, .value src]) records pieces := by
  induction h with
  | nil => exact .nil
  | @cons frame param record src rest pieces hs _ ih =>
    obtain ⟨hnm, hr⟩ := nodup_cons.mp hn
    refine .cons ⟨src, hs, rfl⟩ (forall₂_imp_of_mem (ih hr) fun other ho piece ⟨found, hf, hp⟩ => ?_)
    have hne : other.1 ≠ param := fun heq => hnm (mem_map.mpr ⟨other, ho, heq⟩)
    rw [Frame.slot?_bind, if_neg hne] at hf
    exact ⟨found, hf, hp⟩

/-- The piece gives a value its default. -/
def Defaults (frame : Frame) (id : ValueId) (piece : Piece) : Prop :=
  ∃ slot helper args, frame.slot? id = some slot ∧ makes helper = true ∧ (∀ argument ∈ args, IsConstant argument) ∧
    piece = .call (.direct helper.symbol) (.value slot :: args)

/-- The piece gives a value up. -/
def Drops (frame : Frame) (id : ValueId) (piece : Piece) : Prop :=
  ∃ slot, frame.slot? id = some slot ∧ piece = dropPiece (.value slot)

/-- The code that leaves a subroutine: it closes the frame, or calls what is needed for the exit code and ends the process. -/
inductive Leaving (frame : Frame) (returnValue : ValueId) : Exit → List Item → Prop where
  | toCaller : Leaving frame returnValue .toCaller (Item.code Instruction.closeFrame)
  | withCode (kind : Primitive) {slot : Slot} (hslot : frame.slot? returnValue = some slot) :
    Leaving frame returnValue (.ofProcess (some kind))
      (piecesCode frame [.call (.direct Helper.flushOutput.symbol) [], .call (.direct (Helper.unwrap kind).symbol) [.value slot]]
        ++ Item.code (.movq (.quad .rax) (.quad .rdi) :: Instruction.exitProcess))
  | withoutCode : Leaving frame returnValue (.ofProcess none)
      (piecesCode frame [.call (.direct Helper.flushOutput.symbol) []] ++ Item.code (.zero .rdi :: Instruction.exitProcess))

/-- The parts of a subroutine's code. -/
structure Phases where
  id : SubroutineId
  symbol : String
  body : Body
  /-- The words that native calls need. -/
  words : Nat
  exit : Exit
  copies : List Piece
  defaults : List Piece
  blocks : List Item
  drops : List Piece
  leave : List Item

namespace Phases

/-- The slots at the time of entry. -/
def layout (ph : Phases) : Layout := layoutOf ph.body ph.words

/-- The slots once the parameters have been copied. -/
def frame (ph : Phases) : Frame := withRecords ph.layout.frame ph.layout.records

def routine (ph : Phases) : Routine := ⟨ph.id, ph.symbol, ph.body, ph.frame, ph.layout.scratch⟩

/-- The parts in their order. -/
def items (ph : Phases) : List Item :=
  entryCode ph.symbol ph.layout ++ [.label (localLabel ph.symbol "copy")] ++ piecesCode ph.frame ph.copies
    ++ [.label (localLabel ph.symbol "init")] ++ piecesCode ph.frame ph.defaults
    ++ ph.blocks
    ++ [.label (localLabel ph.symbol "deinit")] ++ piecesCode ph.frame ph.drops
    ++ [.label (localLabel ph.symbol "epilogue")] ++ ph.leave
    ++ [.label (localLabel ph.symbol "exit")]

/-- The parts are what they should be. -/
structure Proper (cx : Context) (syms : SymbolTable) (ph : Phases) : Prop where
  words_eq : scratchWords cx.program ph.body = .ok ph.words
  copies : Copies ph.layout.frame ph.layout.records ph.copies
  defaults : List.Forall₂ (Defaults ph.frame) (ownedVariables ph.body) ph.defaults
  blocks : Woven cx ph.routine ph.words syms ph.blocks
  drops : List.Forall₂ (Drops ph.frame) (ownedValues ph.body) ph.drops
  leave : Leaving ph.frame ph.body.returnValue ph.exit ph.leave

end Phases

section

variable {cx : Context} {kept : Selection} {limits : Limits cx}

section

variable (frame : Frame) (records : List (ValueId × Slot))

theorem size_withRecords : (withRecords frame records).size = frame.size := by
  induction records generalizing frame with
  | nil => rfl
  | cons record rest ih => exact ih (frame.bind record.1 record.2)

theorem copyCode_frame : Yields (copyCode frame records) (fun res => res.2 = withRecords frame records) := by
  induction records generalizing frame with
  | nil => exact .pure rfl
  | cons record rest ih =>
    exact .next fun _ => .bind (ih _) fun _ hl => .pure hl

/-- Parameters are copied into their records, and the records are used from then on. -/
theorem copyCode_selects (h : limits.provided → frame.Covers (records.map Prod.fst)) :
    Selects cx kept (copyCode frame records) (fun res after => res.2 = withRecords frame records ∧
      (∃ pieces, Copies frame records pieces ∧ res.1 = piecesCode frame pieces) ∧ CodeKnown cx res.1 after) limits := by
  induction records generalizing frame kept with
  | nil => exact .pure ⟨rfl, ⟨[], .nil frame, rfl⟩, .nil⟩
  | cons entry rest ih =>
    obtain ⟨param, record⟩ := entry
    have hcv : limits.provided → (frame.bind param record).Covers (rest.map Prod.fst) := fun hp =>
      Frame.Covers.mono (forall_mem_cons.mp (h hp)).2 (Frame.retains_bind frame param record)
    refine .bind (valueArgument_selects fun hp => h hp param (by simp)) fun src _ _ hs => ?_
    refine .bind (ih _ hcv) fun ⟨others, last⟩ _ _ ⟨hl, ⟨pieces, hpc, hc⟩, hk⟩ => .pure ⟨hl, ?_, ?_⟩
    · obtain ⟨slot, hsl, rfl⟩ := hs
      refine ⟨_, .cons hsl hpc, ?_⟩
      dsimp only at hc
      rw [hc, piecesCode_cons]
      exact congrArg _ (piecesCode_congr rfl pieces)
    · refine CodeKnown.append (codeKnown_callOperation frame _ _ ?_) hk
      exact forall_mem_pair .nil hs.passable.known

end

variable {α : Type} {step : α → SelectM (List Item)}

/-- A step for each element that yields a piece for it. -/
theorem collect_pieces_selects (frame : Frame) {made : α → Piece → Prop} (elems : List α)
    (hs : ∀ a ∈ elems, ∀ later, Selects cx later (step a) (fun items after =>
      (∃ piece, made a piece ∧ items = piece.items frame) ∧ CodeKnown cx items after) limits) :
    Selects cx kept (collect step elems) (fun items after =>
      (∃ pieces, Forall₂ made elems pieces ∧ items = piecesCode frame pieces) ∧ CodeKnown cx items after) limits := by
  induction elems generalizing kept with
  | nil => exact .pure ⟨⟨[], .nil, rfl⟩, .nil⟩
  | cons a rest ih =>
    refine .bind (hs a mem_cons_self kept) fun first _ _ ⟨⟨piece, hp, hi⟩, hf⟩ => ?_
    refine .bind (ih fun b hb => hs b (mem_cons_of_mem a hb)) fun others _ hn ⟨⟨pieces, hps, ho⟩, hr⟩ => ?_
    exact .pure ⟨⟨piece :: pieces, .cons hp hps, by rw [hi, ho]; rfl⟩, (hf.mono hn).append hr⟩

variable {frame : Frame} {body : Body}

theorem defaultCode_selects {id : ValueId} (h : limits.provided → (frame.slot? id).isSome = true) :
    Selects cx kept (defaultCode cx frame body id) (fun items after =>
      (∃ piece, Defaults frame id piece ∧ items = piece.items frame) ∧ CodeKnown cx items after) limits := by
  refine .bind (valueArgument_selects h) fun tgt _ _ ht => .bind (.lookUp _) fun val _ _ _ => ?_
  refine (makeDefault_selects frame tgt val.ty).imp fun items after ⟨helper, constants, hm, hh, hc, hi⟩ => ?_
  subst hi
  refine ⟨?_, codeKnown_callDirect frame (forall_mem_cons.mpr ⟨ht.passable.known, fun arg ha =>
    (hc arg ha).known⟩) (.elsewhere hh)⟩
  obtain ⟨slot, hs, rfl⟩ := ht
  exact ⟨_, ⟨slot, helper, constants, hs, hm, fun arg ha => (hc arg ha).constant, rfl⟩, rfl⟩

theorem dropCode_selects {ids : List ValueId} (h : limits.provided → frame.Covers ids) :
    Selects cx kept (dropCode frame ids) (fun items after =>
      (∃ pieces, Forall₂ (Drops frame) ids pieces ∧ items = piecesCode frame pieces) ∧ CodeKnown cx items after) limits := by
  refine collect_pieces_selects frame ids fun id hid later => ?_
  refine .bind (valueArgument_selects fun hp => h hp id hid) fun tgt _ _ ht => .pure ⟨?_, ?_⟩
  · obtain ⟨slot, hs, rfl⟩ := ht
    exact ⟨dropPiece (.value slot), ⟨slot, hs, rfl⟩, rfl⟩
  · exact codeKnown_callOperation frame _ _ (forall_mem_singleton.mpr ht.passable.known)

theorem exitItems_selects {returnValue : ValueId} (h : limits.provided → (frame.slot? returnValue).isSome = true) (exit : Exit) :
    Selects cx kept (exitItems frame returnValue exit) (fun items after =>
      Leaving frame returnValue exit items ∧ CodeKnown cx items after) limits := by
  have hhl {helper : Helper} {args : List Argument} {later : Selection} (hh : helper.symbol ∈ later.externs)
      (ha : ∀ arg ∈ args, AllKnown cx later arg.names) :
      CodeKnown cx (callDirect frame helper.symbol args) later :=
    codeKnown_callDirect frame ha (.elsewhere hh)
  cases exit with
  | toCaller => exact .pure ⟨.toCaller, AllKnown.of_eq_nil rfl⟩
  | ofProcess code =>
    refine .bind (callHelper_selects frame _ _) fun flush _ _ ⟨hf, hh⟩ => ?_
    subst hf
    have hf := hhl hh (forall_mem_nil _)
    cases code with
    | none =>
      refine .bind (.pure rfl) fun val _ hn (hv : val = _) => .pure ?_
      subst hv
      have hl : Leaving frame returnValue (.ofProcess none) _ := .withoutCode
      rw [piecesCode_singleton] at hl
      rw [append_assoc]
      exact ⟨hl, (hf.mono hn).append (AllKnown.of_eq_nil rfl)⟩
    | some kind =>
      have hc : ∀ kept, Selects cx kept (exitCodeCode frame returnValue (some kind)) (fun items after =>
          (∃ slot, frame.slot? returnValue = some slot ∧ items = callDirect frame (Helper.unwrap kind).symbol [.value slot]
            ++ Item.code [.movq (.quad .rax) (.quad .rdi)]) ∧ CodeKnown cx items after) limits := by
        intro kept
        refine .bind (valueArgument_selects h) fun tgt _ _ ht => ?_
        refine .bind (callHelper_selects frame _ _) fun unwrap _ _ ⟨hu, hh⟩ => .pure ?_
        subst hu
        refine ⟨?_, (hhl hh (forall_mem_singleton.mpr ht.passable.known)).append (AllKnown.of_eq_nil rfl)⟩
        obtain ⟨slot, hs, rfl⟩ := ht
        exact ⟨slot, hs, rfl⟩
      refine .bind (hc _) fun val _ hn ⟨⟨slot, hs, hv⟩, hk⟩ => .pure ⟨?_, ?_⟩
      · have hl : Leaving frame returnValue (.ofProcess (some kind)) _ := .withCode kind hs
        rw [piecesCode_pair] at hl
        rw [hv]
        simp only [append_assoc] at hl ⊢
        exact hl
      · exact ((hf.mono hn).append hk).append (AllKnown.of_eq_nil rfl)

/-! ## Entry subroutines -/

/-- What makes a subroutine unfit to be the entry: it takes parameters, or returns something that is no exit code. -/
inductive EntryDefect (cx : Context) (sub : Subroutine) : Refusal → Prop where
  | parameters {params : List TypeId} {ret : TypeId} (hsignature : cx.program.types.signature sub.ty = .ok (some (params, ret)))
    (hparameters : params ≠ []) :
    EntryDefect cx sub (.rejected .wrongArgumentCount "the entry subroutine can't take parameters")
  | returnType {params : List TypeId} {ret : TypeId} {kind : TypeKind} {name : String}
    (hsignature : cx.program.types.signature sub.ty = .ok (some (params, ret)))
    (hkind : cx.program.types.get ret = .ok kind)
    (hunfit : kind ≠ .void ∧ kind ≠ .dynamic ∧ ∀ primitive, kind = .primitive primitive → primitive = .string)
    (hname : cx.program.typeName ret = .ok name) :
    EntryDefect cx sub (.rejected .unsupportedReturnType ("the entry subroutine can't return `" ++ name ++ "` as an exit code"))

/-- Why a subroutine is refused: something is no function, or it is the entry and unfit for that. -/
def Unfit (cx : Context) (id : SubroutineId) (sub : Subroutine) (refusal : Refusal) : Prop :=
  NotFunction cx refusal ∨ cx.program.entry = some id ∧ EntryDefect cx sub refusal

variable {provided : Prop} {id : SubroutineId} {sub : Subroutine}

section

variable (hid : provided → cx.program.subroutines[id]? = some sub)
include hid

theorem exitCode_selects : Selects cx kept (exitCode cx id sub) (fun _ _ => True)
      (.given provided fun refusal => NotFunction cx refusal ∨ EntryDefect cx sub refusal) := by
  refine .bind (.lookUp _) fun sig _ _ hs => ?_
  refine .bind (.require fun hno hp _ => Or.inl (.intro (hid hp) (hno ▸ hs))) fun ⟨params, ret⟩ _ _ hf => ?_
  rw [hf] at hs
  by_cases hpr : params.isEmpty = true
  · simp only [hpr, if_true]
    refine .bind (.lookUp _) fun kind _ _ hk => ?_
    -- a type that is no exit code is named in the refusal
    split
    case h_1 | h_2 | h_7 => exact .pure trivial
    all_goals
      refine .bind (.lookUp _) fun name _ _ hn => .refuse fun _ _ => Or.inr (.returnType hs hk ?_ hn)
      exact ⟨by simp, by simp, fun primitive h => by cases h <;> rfl⟩
  · simp only [hpr]
    refine .refuse_bind fun _ _ => Or.inr (.parameters hs ?_)
    rintro rfl
    exact hpr rfl

theorem exitOf_selects : Selects cx kept (exitOf cx id sub) (fun _ _ => True) (.given provided (Unfit cx id sub)) := by
  unfold exitOf
  split
  · rename_i he
    refine .bind ((exitCode_selects hid).mono (fun _ _ h => h) fun refusal _ hr hp ha => ?_) fun _ _ _ _ => .pure trivial
    rcases hr hp ha with hr | hr
    · exact Or.inl hr
    · exact Or.inr ⟨he, hr⟩
  · exact .pure trivial

end

/-! ## Subroutines -/

/-- No statement needs more words than are set aside for the body. -/
theorem nativeWords_le {prog : Flow.Program} {words : Nat} (hw : scratchWords prog body = .ok words)
    {stmt : Flow.Statement} (hs : stmt ∈ bodyStatements body) {n : Nat}
    (hn : nativeWords prog stmt = .ok n) : n ≤ words := by
  obtain ⟨count, hle, hc⟩ := (scratchWords_spec hw).1 stmt hs
  cases hn.symm.trans hc
  exact hle

/-- Where a sound body is selected, its statements find what they need. -/
theorem ready_of_layoutOf (hs : body.Sound cx.program.literals) (hp : body.Placed) {words : Nat}
    (hw : scratchWords cx.program body = .ok words) (id : SubroutineId) (sym : String) :
    Routine.Ready cx
      ⟨id, sym, body, withRecords (layoutOf body words).frame (layoutOf body words).records, (layoutOf body words).scratch⟩ :=
  ⟨hs, hp, frameReady_layoutOf hs hp words, fun _ hst _ _ _ _ ha hc hf =>
    isSome_scratch hw hst (foreignCallee?_of_call ha hc hf)⟩

/-- To save what arrives mentions nothing. -/
theorem codeNames_entryCode (sym : String) (layout : Layout) : codeNames (entryCode sym layout) = [] := by
  unfold entryCode
  rw [codeNames_append, codeNames_code, flatMap_append, append_eq_nil_iff, append_eq_nil_iff]
  refine ⟨rfl, ?_, ?_⟩
  · split
    · rfl
    · rfl
  · rw [flatMap_eq_nil_iff]
    intro op hop
    obtain ⟨entry, -, rfl⟩ := mem_map.mp hop
    rfl

/-- The code of a subroutine has its parts, and mentions names that are known and places of its own. -/
def SubroutineMade (cx : Context) (provided : Prop) (body : Body) (sym : String) (res : List Item × Frame) (kept : Selection) :
    Prop :=
  (∃ ph : Phases, ph.Proper cx kept.symbols ∧ ph.symbol = sym ∧ ph.body = body ∧
    res = (ph.items, ph.frame)) ∧ (provided → Covered cx (routineTargets sym body) res.1 kept)

/-- Once it is known how the subroutine is left, nothing in it is refused that makes sense. -/
theorem subroutineCode_eq_bind (cx : Context) (id : SubroutineId) (sub : Subroutine) (body : Body) (sym : String) :
    ∃ rest, subroutineCode cx id sub body sym = exitOf cx id sub >>= rest ∧
      ∀ (provided : Prop), (provided → body.Sound cx.program.literals ∧ body.Placed) → ∀ exit kept,
        Selects cx kept (rest exit) (SubroutineMade cx provided body sym) (.accepting provided (NotFunction cx)) := by
  refine ⟨_, rfl, fun provided hb exit kept => ?_⟩
  refine .bind (.lookUp _) fun words _ _ hw => ?_
  have hcv : (layoutOf body words).frame.Covers ((layoutOf body words).records.map Prod.fst) := by
    intro val hv
    rw [records_layoutOf] at hv
    rw [slot?_layoutOf]
    exact covers_bodyFrame body val (by simp [hv])
  refine .bind (copyCode_selects _ _ fun _ => hcv) fun ⟨copy, frame⟩ _ _ ⟨hf, ⟨copies, hcp, hcy⟩, hk⟩ => ?_
  subst hf hcy
  have hr : provided → Routine.Ready cx ⟨id, sym, body, _, (layoutOf body words).scratch⟩ :=
    fun hp => ready_of_layoutOf (hb hp).1 (hb hp).2 hw id sym
  have hs : provided → ∀ val, val = body.returnValue ∨ val ∈ body.parameters ++ body.locals ++ body.temporaries →
      ((withRecords (layoutOf body words).frame (layoutOf body words).records).slot? val).isSome = true := by
    intro hp val hv
    rw [← mem_cons, (hb hp).1.values_eq, mem_range] at hv
    exact (hr hp).frame.slots val hv
  have hvr : ∀ val ∈ ownedVariables body, val ∈ body.parameters ++ body.locals ++ body.temporaries := by
    intro val hv
    rw [append_assoc]
    exact mem_append_right _ (mem_filter.mp hv).1
  have hen : ∀ entry ∈ body.blocks.entries, body.blocks[entry.1]? = some entry.2 := fun entry he => Table.mem_entries.mp he
  refine .bind (collect_pieces_selects _ _ fun val hv _ => defaultCode_selects fun hp =>
    hs hp val (Or.inr (hvr val hv))) fun defaults _ hn₁ ⟨⟨defaults, hd, hi⟩, hk₁⟩ => ?_
  subst hi
  have hnd : ∀ entry ∈ body.blocks.entries, ∀ stmt ∈ entry.2.statements, ∀ n,
      nativeWords cx.program stmt = .ok n → n ≤ words := fun entry he stmt hst n hn =>
    nativeWords_le hw (mem_bodyStatements.mpr ⟨entry.1, entry.2, hen entry he, hst⟩) hn
  refine .bind (blocksCode_selects hr 0 _ (fun _ => hen) hnd) fun blocks _ hn₂ hbl => ?_
  refine .bind (dropCode_selects fun hp val hv => hs hp val (Or.inr (mem_filter.mp hv).1)) fun drops _ hn₃ ⟨⟨drops, hdr, hi⟩, hk₃⟩ => ?_
  subst hi
  refine .bind (exitItems_selects (fun hp => hs hp body.returnValue (Or.inl rfl)) exit) fun leave last hn₄ ⟨hlv, hk₄⟩ =>
    .pure ⟨⟨⟨id, sym, body, words, exit, copies, defaults, blocks, drops, leave⟩,
      ⟨hw, hcp, hd, hbl.1.mono (Notes.within (hn₃.trans hn₄)), hdr, hlv⟩, rfl, rfl, ?_⟩, fun hp => ?_⟩
  · have hsz : (layoutOf body words).frame.size = (withRecords (layoutOf body words).frame (layoutOf body words).records).size :=
      (size_withRecords _ _).symm
    rw [piecesCode_congr hsz]
    rfl
  -- what was known when a phase was selected is known at the end
  · have hl : ∀ role, Covered cx (routineTargets sym body) [.label (localLabel sym role)] last := fun role => covered_of_eq_nil rfl
    have ho : Covered cx (routineTargets sym body) (entryCode sym (layoutOf body words)) last :=
      covered_of_eq_nil (codeNames_entryCode sym _)
    have hbl := (hbl.2 hp).mono (hn₃.trans hn₄)
    have hop := (ho.append (hl "copy")).append (hk.mono (((hn₁.trans hn₂).trans hn₃).trans hn₄)).covered
    have hb := ((hop.append (hl "init")).append (hk₁.mono ((hn₂.trans hn₃).trans hn₄)).covered).append hbl
    have hc := ((hb.append (hl "deinit")).append (hk₃.mono hn₄).covered).append (hl "epilogue")
    exact (hc.append hk₄.covered).append (hl "exit")

theorem subroutineCode_selects (hid : provided → cx.program.subroutines[id]? = some sub)
    (hb : provided → body.Sound cx.program.literals ∧ body.Placed) (sym : String) :
    Selects cx kept (subroutineCode cx id sub body sym) (SubroutineMade cx provided body sym) (.given provided (Unfit cx id sub)) := by
  obtain ⟨rest, hc, hr⟩ := subroutineCode_eq_bind cx id sub body sym
  rw [hc]
  exact .bind (exitOf_selects hid) fun exit later _ _ => (hr provided hb exit later).mono (fun _ _ h => h)
    fun _ _ h hp ha => Or.inl (h.2 hp ha)

/-- What is emitted for a subroutine has its parts, whatever was provided. -/
theorem subroutineCode_leaves {before : SymbolTable} (id : SubroutineId) (sub : Subroutine) (body : Body) (sym : String) :
    Leaves before (subroutineCode cx id sub body sym) (fun res now => ∃ ph : Phases,
      ph.Proper cx now ∧ ph.symbol = sym ∧ ph.body = body ∧ res = (ph.items, ph.frame)) :=
  Selects.leaves fun _ => (subroutineCode_selects False.elim False.elim sym).imp fun _ _ h => h.1

/-! ## Initializers and the start of the process -/

/-- The code is made of pieces. -/
def Pieced (frame : Frame) (items : List Item) : Prop := ∃ pieces, items = piecesCode frame pieces

theorem Pieced.append {first rest : List Item} (hf : Pieced frame first) (hr : Pieced frame rest) : Pieced frame (first ++ rest) := by
  obtain ⟨pieces, rfl⟩ := hf
  obtain ⟨others, rfl⟩ := hr
  exact ⟨pieces ++ others, (piecesCode_append frame pieces others).symm⟩

theorem Piece.pieced (piece : Piece) (frame : Frame) : Pieced frame (piece.items frame) := ⟨[piece], (append_nil _).symm⟩

theorem pieced_callDirect (frame : Frame) (sym : String) (args : List Argument) : Pieced frame (callDirect frame sym args) :=
  Piece.pieced (.call (.direct sym) args) frame

/-- The code is made of pieces, and all that it mentions is known. -/
def KnownPieces (cx : Context) (frame : Frame) (items : List Item) (kept : Selection) : Prop :=
  Pieced frame items ∧ CodeKnown cx items kept

theorem collect_knownPieces (elems : List α) (h : ∀ a ∈ elems, ∀ later, Selects cx later (step a) (KnownPieces cx frame) limits) :
    Selects cx kept (collect step elems) (KnownPieces cx frame) limits :=
  .collect (fun _ => ⟨⟨[], rfl⟩, .nil⟩) (fun _ _ _ _ hn hf hr => ⟨hf.1.append hr.1, (hf.2.mono hn).append hr.2⟩)
    elems fun a ha later _ => h a ha later

theorem callHelper_knownPieces (frame : Frame) (helper : Helper) {args : List Argument} (h : ∀ arg ∈ args, AllKnown cx kept arg.names) :
    Selects cx kept (callHelper frame helper args) (KnownPieces cx frame) limits :=
  .bind (addExtern_selects _) fun _ _ hn he => .pure ⟨pieced_callDirect frame helper.symbol args,
    codeKnown_callDirect frame (fun arg ha => (h arg ha).mono hn) (.elsewhere he)⟩

theorem makeDefault_knownPieces (frame : Frame) {tgt : Argument} (ht : tgt.names = []) (ty : TypeId) :
    Selects cx kept (makeDefault cx frame tgt ty) (KnownPieces cx frame) limits := by
  refine (makeDefault_selects frame tgt ty).imp fun items after ⟨helper, constants, _, hh, hc, hi⟩ => ?_
  subst hi
  exact ⟨pieced_callDirect _ _ _, codeKnown_callDirect frame (forall_mem_cons.mpr ⟨.of_eq_nil ht, fun arg ha =>
    (hc arg ha).known⟩) (.elsewhere hh)⟩

section

variable (places : InitializerFrame)

theorem memberPlaceCode_selects (name : String) : Selects cx kept (memberPlaceCode places name) (KnownPieces cx places.frame) limits := by
  refine .bind (stringArguments_selects name) fun contents _ _ hcn => .pure ⟨?_, CodeKnown.append ?_ (codeKnown_storeResult _)⟩
  · have hc := Piece.pieced (.call (.operation .memberRef .rdi) (.load places.object :: contents)) places.frame
    exact hc.append (Piece.pieced (.store places.member) places.frame)
  · exact codeKnown_callOperation places.frame _ _ (forall_mem_cons.mpr ⟨.nil, fun arg ha =>
      (hcn arg ha).known⟩)

theorem fieldCode_selects (field : Flow.Field) : Selects cx kept (fieldCode cx places field) (KnownPieces cx places.frame) limits :=
  .bind (memberPlaceCode_selects places field.name) fun _ _ _ hp => .bind (makeDefault_knownPieces places.frame rfl field.ty)
    fun _ _ hn hm => .pure ⟨hp.1.append hm.1, (hp.2.mono hn).append hm.2⟩

theorem methodCode_selects {method : Flow.Method} (h : limits.provided → method.subroutine < cx.program.subroutines.length) :
    Selects cx kept (methodCode cx places method) (KnownPieces cx places.frame) limits := by
  refine .bind (subroutineSymbol_selects h) fun sym _ _ hs => ?_
  refine .bind (memberPlaceCode_selects places method.name) fun place later hn hp => ?_
  have hnm : ∀ arg ∈ [Argument.load places.member, .symbol sym], AllKnown cx later arg.names :=
    forall_mem_pair .nil (.single (hn.knows hs.2))
  exact .bind (callHelper_knownPieces places.frame _ hnm) fun make _ hn' hm =>
    .pure ⟨hp.1.append hm.1, (hp.2.mono hn').append hm.2⟩

end

/-- An initializer opens a frame, keeps the address of the object, makes it and its members, and closes the frame. It mentions names
that are known, and is not refused where its methods exist. -/
theorem initializerCode_selects {decl : ClassLayout}
    (h : limits.provided → ∀ method ∈ decl.methods, method.subroutine < cx.program.subroutines.length) (sym : String) :
    Selects cx kept (initializerCode cx decl sym) (fun items after => (∃ pieces, items =
      .label sym :: (Item.code (Instruction.openFrame ++ [.subq initializerFrame.frame.size .rsp,
        .movq (.quad .rdi) (.frame initializerFrame.object)]) ++ piecesCode initializerFrame.frame pieces
        ++ Item.code Instruction.closeFrame)) ∧ CodeKnown cx items after) limits := by
  refine .bind (.lookUp _) fun name _ _ _ => .bind (stringArguments_selects name) fun contents later _ hc => ?_
  refine .bind (callHelper_knownPieces initializerFrame.frame _ (forall_mem_cons.mpr ⟨.nil, fun arg ha =>
    (hc arg ha).known⟩)) fun make _ _ hm => ?_
  refine .bind (collect_knownPieces _ fun field _ _ => fieldCode_selects initializerFrame field) fun fields _ hn₁ hf => ?_
  refine .bind (collect_knownPieces _ fun method hmh _ => methodCode_selects initializerFrame fun hp => h hp method hmh)
    fun methods last hn₂ hmt => .pure ⟨?_, ?_⟩
  · obtain ⟨pieces, hpc⟩ := (hm.1.append hf.1).append hmt.1
    refine ⟨pieces, ?_⟩
    rw [← hpc]
    simp
  · have ho : CodeKnown cx (.label sym :: Item.code (Instruction.openFrame ++
        [.subq initializerFrame.frame.size .rsp, .movq (.quad .rdi) (.frame initializerFrame.object)])) last := AllKnown.of_eq_nil rfl
    have hmd := (ho.append (hm.2.mono (hn₁.trans hn₂))).append (hf.2.mono hn₂)
    exact (hmd.append hmt.2).append (AllKnown.of_eq_nil rfl)

theorem initializerCode_pieced (decl : ClassLayout) (sym : String) : Yields (initializerCode cx decl sym) (fun items => ∃ pieces, items =
      .label sym :: (Item.code (Instruction.openFrame ++ [.subq initializerFrame.frame.size .rsp,
        .movq (.quad .rdi) (.frame initializerFrame.object)]) ++ piecesCode initializerFrame.frame pieces
        ++ Item.code Instruction.closeFrame)) := by
  have hp := fun kept => (initializerCode_selects False.elim sym : Selects cx kept (initializerCode cx decl sym) _ (.lenient cx))
  exact Selects.yields fun kept => (hp kept).imp fun _ _ h => h.1

/-- The frame in which the process starts. -/
def startFrame : Frame := Frame.empty.reserve inlineSlotSize

/-- The process starts with a frame of its own, which is never closed. -/
theorem startCode_pieced (sym : String) : Yields (startCode sym) (fun items => ∃ pieces, items = Item.exportedLabel startSymbol
      ++ Item.code [.movq (.quad .rsp) (.quad .rbp), .subq startFrame.size .rsp] ++ piecesCode startFrame pieces) := by
  refine .bind (callHelper_yields startFrame _ _) fun make hm => .pure ?_
  obtain ⟨pieces, hp⟩ := (pieced_callDirect startFrame _ _).append (pieced_callDirect startFrame sym [.value ⟨-startFrame.size, false⟩])
  refine ⟨pieces, ?_⟩
  rw [← hp, ← append_assoc, hm]
  rfl

end

end TagAsm.Select
