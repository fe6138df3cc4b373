import TagAsm.Proofs.StraightCode

/-!
# Deeds

A statement becomes a row of calls, between which words that were returned are kept in the frame. Most calls stand for
themselves. A call that ends the life of a value does not: right after it a new value is made in the same place. The two
together, and every other call or word, are one deed, and the code of a statement is a row of deeds (`Deeds`).
-/

namespace TagAsm.Asm.SymbolTable

/-- The symbols of the subroutines are the same, and initializers that had a symbol have it still. -/
structure Within (before after : SymbolTable) : Prop where
  subroutines : after.subroutines = before.subroutines
  initializers : before.initializers ⊆ after.initializers

/-- A table of symbols holds its own symbols. -/
theorem Within.refl (syms : SymbolTable) : syms.Within syms := ⟨rfl, List.Subset.refl _⟩

end TagAsm.Asm.SymbolTable

namespace TagAsm.Select

open Asm Abi SelectM List
open TagAsm.Flow (SubroutineId ValueId)

/-! ## Pieces of code -/

/-- What a call goes to. -/
inductive Transfer where
  /-- An operation of the value whose address is in the register. -/
  | operation (operation : Operation) (receiver : Register)
  | direct (sym : String)
  /-- Native code, which is told that it gets no vectors. -/
  | native (sym : String)
  deriving DecidableEq, Repr

/-- The instructions that transfer control. -/
def Transfer.code : Transfer → List Instruction
  | .operation kind receiver => operationTransfer kind receiver
  | .direct sym => [.call (.symbol sym)]
  | .native sym => [.zero .rax, .call (.symbol sym)]

/-- A piece of straight code. -/
inductive Piece where
  | call (transfer : Transfer) (args : List Argument)
  /-- Keeps the word that a call returned. -/
  | store (off : Int)
  deriving DecidableEq, Repr

/-- The code of a piece. Of the frame, only the size matters. -/
def Piece.items (frame : Frame) : Piece → List Item
  | .call transfer arguments => Item.code (frame.callCode arguments transfer.code)
  | .store off => storeResult off

variable {frame other : Frame}

/-- Of the frame, only the size matters for a piece. -/
theorem Piece.items_congr (h : frame.size = other.size) (piece : Piece) : piece.items frame = piece.items other := by
  cases piece with
  | store off => rfl
  | call transfer args => simp only [items, Frame.callCode, Frame.marshal, Frame.release, h]

/-- The code of pieces. -/
def piecesCode (frame : Frame) (pieces : List Piece) : List Item := pieces.flatMap (Piece.items frame)

section

variable (frame : Frame)

@[simp] theorem piecesCode_cons (piece : Piece) (rest : List Piece) :
    piecesCode frame (piece :: rest) = piece.items frame ++ piecesCode frame rest := rfl

/-- The code of one piece is all there is. -/
theorem piecesCode_singleton (piece : Piece) : piecesCode frame [piece] = piece.items frame := append_nil _

/-- The code of two pieces is that of the first, then that of the second. -/
theorem piecesCode_pair (first second : Piece) : piecesCode frame [first, second] = first.items frame ++ second.items frame := by
  rw [piecesCode_cons, piecesCode_singleton]

@[simp] theorem piecesCode_append (first rest : List Piece) :
    piecesCode frame (first ++ rest) = piecesCode frame first ++ piecesCode frame rest :=
  flatMap_append

end

/-- Of the frame, only the size matters. -/
theorem piecesCode_congr (h : frame.size = other.size) (pieces : List Piece) : piecesCode frame pieces = piecesCode other pieces :=
  congrArg (pieces.flatMap ·) (funext (Piece.items_congr h))

/-- To transfer control is to take steps. -/
theorem isStep_transfer (transfer : Transfer) : ∀ op ∈ transfer.code, op.isStep = true := by
  cases transfer with
  | operation operation receiver => exact isStep_operationTransfer operation receiver
  | direct sym => exact forall_mem_singleton.mpr rfl
  | native sym => exact forall_mem_pair rfl rfl

/-- The code of pieces consists of steps. -/
theorem steps_piecesCode (frame : Frame) (pieces : List Piece) : Steps (piecesCode frame pieces) := by
  induction pieces with
  | nil => exact Steps.nil
  | cons piece rest ih =>
    refine Steps.append ?_ ih
    cases piece with
    | store off => exact steps_storeResult off
    | call transfer args => exact steps_callCode frame args (isStep_transfer transfer)

/-- Ends the life of a value. -/
def dropPiece (val : Argument) : Piece := .call (.operation .drop .rdi) [val]

/-! ## Deeds -/

/-- The helpers that make a value, in the place that they are given first. -/
def makes : Helper → Bool
  | .make _ | .makeNone | .makeFunction | .makeArray | .makeObject => true
  | .unwrap _ | .printValue | .flushOutput => false

/-- A symbol of code that makes a value: a helper, or the initializer of a class. -/
inductive Constructor (cx : Context) (syms : SymbolTable) : String → Prop where
  | helper {helper : Helper} (hmakes : makes helper = true) : Constructor cx syms helper.symbol
  | initializer {ty : TypeId} {sym : String} (hclass : (cx.program.classOfType? ty).isSome = true)
    (hmem : (ty, sym) ∈ syms.initializers) : Constructor cx syms sym

/-- The argument is the address of this value, which has a slot in the frame. -/
def IsValue (frame : Frame) (id : ValueId) (arg : Argument) : Prop := ∃ slot, frame.slot? id = some slot ∧ arg = .value slot

/-- If the argument is the address of a value, then of one that has its slot in the frame. -/
def Placed (frame : Frame) (arg : Argument) : Prop := ∀ slot, arg = .value slot → ∃ id, frame.slot? id = some slot

/-- The argument is not the address of a value. -/
def IsWord (arg : Argument) : Prop := ∀ slot, arg ≠ .value slot

variable {arg : Argument}

/-- A word needs no slot. -/
theorem IsWord.placed (h : IsWord arg) : Placed frame arg := fun slot hs => absurd hs (h slot)

/-- The argument is known when code is selected. -/
def IsConstant (arg : Argument) : Prop := (∃ word, arg = .immediate word) ∨ ∃ label, arg = .symbol label

/-- Constants are words. -/
theorem IsConstant.isWord (h : IsConstant arg) : IsWord arg := by
  rcases h with ⟨word, rfl⟩ | ⟨label, rfl⟩ <;> exact fun _ => Argument.noConfusion

/-- This is one of the `words` words that native calls are prepared in. -/
def Routine.IsScratch (rt : Routine) (words : Nat) (off : Int) : Prop :=
  ∃ (scratch : Int) (place : Nat), rt.scratch = some scratch ∧ place < words ∧ off = scratch + 8 * place

/-- Where a routine keeps words: in the slot of a value that holds an address, or among the words that native calls are prepared
in. -/
def Routine.Stores (rt : Routine) (words : Nat) (off : Int) : Prop :=
  (∃ id, rt.frame.slot? id = some ⟨off, true⟩) ∨ rt.IsScratch words off

/-- The argument says what a new value is made from: a constant, or a word that native code returned. -/
def Routine.IsSource (rt : Routine) (words : Nat) (arg : Argument) : Prop :=
  IsConstant arg ∨ ∃ off, arg = .load off ∧ rt.IsScratch words off

/-- What a value is made from is a word. -/
theorem Routine.IsSource.isWord {rt : Routine} {words : Nat} (h : rt.IsSource words arg) : IsWord arg := by
  rcases h with hc | ⟨off, rfl, -⟩
  · exact hc.isWord
  · exact fun _ => Argument.noConfusion

/-- The register gets the address of a value. -/
def Receives (receiver : Register) (args : List Argument) : Prop :=
  ∃ (place : Nat) (slot : Slot), Register.arguments[place]? = some receiver ∧ args[place]? = some (.value slot)

/-- What belongs together in the code of a statement. -/
inductive Deed (cx : Context) (rt : Routine) (words : Nat) (syms : SymbolTable) : List Piece → Prop where
  | apply {operation : Operation} {receiver : Register} {args : List Argument} (hdrop : operation ≠ .drop)
    (hcopy : operation ≠ .copy) (hreceiver : Receives receiver args)
    (harguments : ∀ arg ∈ args, Placed rt.frame arg) :
    Deed cx rt words syms [.call (.operation operation receiver) args]
  | help {helper : Helper} {args : List Argument} (hmakes : makes helper = false) (harguments : ∀ arg ∈ args, Placed rt.frame arg) :
    Deed cx rt words syms [.call (.direct helper.symbol) args]
  | invoke {id : SubroutineId} {sym : String} {args : List Argument} (hsymbol : syms.subroutine? id = some sym)
    (harguments : ∀ arg ∈ args, Placed rt.frame arg) :
    Deed cx rt words syms [.call (.direct sym) args]
  | native {id : SubroutineId} {sym : String} {args : List Argument} (hsymbol : syms.subroutine? id = some sym)
    (harguments : ∀ arg ∈ args, IsWord arg) :
    Deed cx rt words syms [.call (.native sym) args]
  | store {off : Int} (hoffset : rt.Stores words off) : Deed cx rt words syms [.store off]
  /-- A value is given up, and another one is made in its place. -/
  | remake {id : ValueId} {tgt : Argument} {sym : String} {args : List Argument}
    (htarget : IsValue rt.frame id tgt) (hsymbol : Constructor cx syms sym)
    (harguments : ∀ arg ∈ args, rt.IsSource words arg) :
    Deed cx rt words syms [dropPiece tgt, .call (.direct sym) (tgt :: args)]

/-- The code is a row of deeds. -/
def Deeds (cx : Context) (rt : Routine) (words : Nat) (items : List Item) (syms : SymbolTable) : Prop :=
  ∃ deeds : List (List Piece), items = piecesCode rt.frame deeds.flatten ∧ ∀ deed ∈ deeds, Deed cx rt words syms deed

/-! ## Deeds and symbols that stay -/

section

variable {cx : Context} {rt : Routine} {words : Nat} {syms later : SymbolTable}

/-- What makes values still does when symbols are added. -/
theorem Constructor.mono {sym : String} (h : Constructor cx syms sym) (hl : syms.Within later) : Constructor cx later sym := by
  cases h with
  | helper hm => exact .helper hm
  | initializer hc hmem => exact .initializer hc (hl.initializers hmem)

/-- A deed stays one when symbols are added. -/
theorem Deed.mono {deed : List Piece} (h : Deed cx rt words syms deed) (hl : syms.Within later) : Deed cx rt words later deed := by
  have hsm : ∀ id, later.subroutine? id = syms.subroutine? id := fun id => by
    rw [SymbolTable.subroutine?, SymbolTable.subroutine?, hl.subroutines]
  cases h with
  | apply hd hc hr ha => exact .apply hd hc hr ha
  | help hm ha => exact .help hm ha
  | invoke hs ha => exact .invoke ((hsm _).trans hs) ha
  | native hs ha => exact .native ((hsm _).trans hs) ha
  | store ho => exact .store ho
  | remake ht hs ha => exact .remake ht (hs.mono hl) ha

/-- Deeds stay deeds when symbols are added. -/
theorem Deeds.mono {items : List Item} (h : Deeds cx rt words items syms) (hl : syms.Within later) : Deeds cx rt words items later := by
  obtain ⟨deeds, hi, hds⟩ := h
  exact ⟨deeds, hi, fun deed hd => (hds deed hd).mono hl⟩

/-- No code is a row of no deeds. -/
theorem Deeds.nil : Deeds cx rt words [] syms := ⟨[], rfl, forall_mem_nil _⟩

/-- Deeds after deeds are deeds. -/
theorem Deeds.append {first rest : List Item} (hf : Deeds cx rt words first syms)
    (hr : Deeds cx rt words rest syms) : Deeds cx rt words (first ++ rest) syms := by
  obtain ⟨deeds, rfl, hd⟩ := hf
  obtain ⟨others, rfl, ho⟩ := hr
  refine ⟨deeds ++ others, ?_, forall_mem_append.mpr ⟨hd, ho⟩⟩
  rw [flatten_append, piecesCode_append]

/-- The code of a deed is a row of deeds. -/
theorem Deed.deeds {deed : List Piece} (h : Deed cx rt words syms deed) : Deeds cx rt words (piecesCode rt.frame deed) syms :=
  ⟨[deed], by rw [flatten_singleton], forall_mem_singleton.mpr h⟩

/-- A deed of one piece is a row of deeds. -/
theorem Deed.single {piece : Piece} (h : Deed cx rt words syms [piece]) : Deeds cx rt words (piece.items rt.frame) syms := by
  have hc := h.deeds
  rwa [piecesCode_singleton] at hc

/-- A value is given up, and what comes next makes another one in its place. -/
theorem deeds_remake {id : ValueId} {tgt : Argument} {sym : String} {args : List Argument}
    (ht : IsValue rt.frame id tgt) (hs : Constructor cx syms sym)
    (ha : ∀ arg ∈ args, rt.IsSource words arg) :
    Deeds cx rt words (dropValue rt.frame tgt ++ callDirect rt.frame sym (tgt :: args)) syms := by
  have hd : Deed cx rt words syms [dropPiece tgt, .call (.direct sym) (tgt :: args)] := .remake ht hs ha
  have hc := hd.deeds
  rwa [piecesCode_pair] at hc

end

/-! ## Addresses of values -/

section

variable {id : ValueId} (h : IsValue frame id arg)
include h

/-- A value has its slot. -/
theorem IsValue.placed : Placed frame arg := by
  obtain ⟨slot, hs, rfl⟩ := h
  intro other ho
  exact ⟨id, Argument.value.inj ho ▸ hs⟩

/-- An operation finds its value in the first register. -/
theorem IsValue.receives_first (rest : List Argument) : Receives .rdi (arg :: rest) := by
  obtain ⟨slot, -, rfl⟩ := h
  exact ⟨0, slot, rfl, rfl⟩

/-- An operation finds its value in the second register. -/
theorem IsValue.receives_second (first : Argument) (rest : List Argument) : Receives .rsi (first :: arg :: rest) := by
  obtain ⟨slot, -, rfl⟩ := h
  exact ⟨1, slot, rfl, rfl⟩

end

/-- Values have their slots. -/
theorem placed_of_isValue {ids : List ValueId} {args : List Argument} (h : Forall₂ (IsValue frame) ids args) :
    ∀ arg ∈ args, Placed frame arg := by
  induction h with
  | nil => exact forall_mem_nil _
  | cons hf _ ih => exact forall_mem_cons.mpr ⟨hf.placed, ih⟩

/-! ## Operators -/

variable (kind : Flow.Operator)

/-- No operator ends the life of a value. -/
theorem ofOperator_ne_drop : Operation.ofOperator kind ≠ .drop := by
  cases kind <;> decide

/-- No operator copies a value. -/
theorem ofOperator_ne_copy : Operation.ofOperator kind ≠ .copy := by
  cases kind <;> decide

/-- Every operator has an operand. -/
theorem operandCount_pos : 0 < operandCount kind := by
  cases kind <;> decide

end TagAsm.Select
