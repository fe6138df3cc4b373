import Mathlib.Data.List.ProdSigma
import Mathlib.Data.List.TakeWhile
import TagAsm.Proofs.Naming

/-!
# The text of an instruction tells the instruction

The text of an operand has two parts: what stands in front of the parentheses, in which there is no comma, and what stands between them, if
there are any. So operands can be told apart although addresses have commas as well, and the parts tell which kind of operand it is, and
which one. What a register points to is written like what lies at a displacement of zero.
-/

namespace TagAsm.Asm

open List

/-- Two texts that are cut where the first character of some kind stands are cut at the same place. -/
theorem append_inj_of_stops {α : Type} (goesOn : α → Bool) {front front' back back' : List α} (hf : ∀ c ∈ front, goesOn c = true)
    (hf' : ∀ c ∈ front', goesOn c = true) (hb : ∀ c ∈ back.head?, goesOn c = false)
    (hb' : ∀ c ∈ back'.head?, goesOn c = false) (h : front ++ back = front' ++ back') : front = front' ∧ back = back' := by
  have hs : ∀ {rest : List α}, (∀ c ∈ rest.head?, goesOn c = false) → rest.takeWhile goesOn = [] := by
    intro rest hr
    cases rest with
    | nil => rfl
    | cons c rest => rw [takeWhile_cons_of_neg (by simp [hr c rfl])]
  have hcut := congrArg (takeWhile goesOn) h
  rw [takeWhile_append_of_pos hf, takeWhile_append_of_pos hf', hs hb, hs hb', append_nil, append_nil] at hcut
  subst hcut
  exact ⟨rfl, append_cancel_left h⟩

/-! ## Mnemonics -/

/-- A mnemonic with the letter for the size. -/
def mnemonicText (mnemonic : Mnemonic) (size : Option Size) : String := mnemonic.name ++ (size.map Size.letter).getD ""

/-- Every mnemonic with every size and with none. -/
def mnemonics : List (Mnemonic × Option Size) :=
  [.mov, .lea, .push, .pop, .add, .sub, .xor, .test, .cmp, .call, .jmp, .jne, .je, .ret, .syscall].flatMap fun mnemonic =>
    [none, some .byte, some .word, some .long, some .quad].map fun size => (mnemonic, size)

theorem mem_mnemonics (mnemonic : Mnemonic) (size : Option Size) : (mnemonic, size) ∈ mnemonics := by
  refine mem_flatMap.mpr ⟨mnemonic, by cases mnemonic <;> decide, mem_map_of_mem ?_⟩
  rcases size with _ | (_ | _ | _ | _) <;> decide

theorem mnemonicText_inj {mnemonic mnemonic' : Mnemonic} {size size' : Option Size}
    (h : mnemonicText mnemonic size = mnemonicText mnemonic' size') : mnemonic = mnemonic' ∧ size = size' := by
  have hn : (mnemonics.map fun entry => mnemonicText entry.1 entry.2).Nodup := by decide +kernel
  exact Prod.mk.inj (inj_on_of_nodup_map hn (mem_mnemonics mnemonic size) (mem_mnemonics mnemonic' size') h)

theorem ne_space_of_mem_mnemonicText (mnemonic : Mnemonic) (size : Option Size) :
    ∀ c ∈ (mnemonicText mnemonic size).toList, (c != ' ') = true := by
  have hall : ∀ entry ∈ mnemonics, (mnemonicText entry.1 entry.2).toList.all (· != ' ') = true := by decide +kernel
  exact all_eq_true.mp (hall (mnemonic, size) (mem_mnemonics mnemonic size))

/-! ## Operands -/

namespace Operand

/-- The operand with the displacement that its text leaves out. -/
def canonical : Operand → Operand
  | .indirect reg => .displaced reg 0
  | operand => operand

/-- A name that is not empty and has no character that means something in an operand, such as one of letters, digits, underscores and
dots. -/
def IsName (name : String) : Prop := name ≠ "" ∧ ∀ c ∈ name.toList, c ∉ [' ', '$', '%', '(', ')', '*', ',']

/-- The symbol that an operand mentions is a name. -/
def Named : Operand → Prop
  | .symbol name | .relative name => IsName name
  | _ => True

/-- What stands in front of the parentheses, and what stands between them. -/
abbrev Parts := List Char × Option (List Char)

/-- What stands between parentheses, with them. -/
def enclosed : Option (List Char) → List Char
  | some inner => '(' :: inner ++ [')']
  | none => []

/-- The parts together. -/
def Parts.text (parts : Parts) : List Char := parts.1 ++ enclosed parts.2

/-- A character that neither ends a part nor starts one. -/
def isFree (c : Char) : Bool := c ∉ ['(', ')', ',']

/-- The parts can be told from each other, and from what follows them. -/
def Parts.Closed (parts : Parts) : Prop :=
  (∀ c ∈ parts.1, isFree c = true) ∧ ∀ inner ∈ parts.2, ∀ c ∈ inner, (c != ')') = true

/-- A register in an address. -/
def registerText (reg : Register) : List Char := '%' :: (reg.name .quad).toList

/-- The parts of an operand. -/
def parts : Operand → Parts
  | .register reg width => ('%' :: (reg.name width).toList, none)
  | .immediate value => ('$' :: (toString value).toList, none)
  | .symbol tgt => (tgt.toList, none)
  | .indexed base index scale displacement =>
    ((displacementText displacement).toList,
      some ((base.map registerText).getD [] ++ ',' :: ' ' :: (registerText index ++ ',' :: ' ' :: (toString scale.toNat).toList)))
  | .indirect reg => ([], some (registerText reg))
  | .displaced reg displacement => ((displacementText displacement).toList, some (registerText reg))
  | .relative tgt => (tgt.toList, some ['%', 'r', 'i', 'p'])

theorem toList_text (opd : Operand) : opd.text.toList = opd.parts.text := by
  cases opd with
  | indexed base index scale displacement =>
    cases base <;> simp [text, parts, Parts.text, enclosed, registerText, Register.name]
  | _ => simp [text, parts, Parts.text, enclosed, registerText, Register.name]

/-! ### Parts are told from each other -/

theorem isFree_of_mem_toString (val : Int) : ∀ c ∈ (toString val).toList, isFree c = true := by
  have hd : ∀ n : Nat, ∀ c ∈ (Nat.repr n).toList, isFree c = true := by
    intro n c hc
    rw [Nat.toList_repr] at hc
    have hdg := Nat.isDigit_of_mem_toDigits (by decide) (by decide) hc
    rw [isFree, decide_eq_true_eq]
    intro hmem
    simp only [mem_cons, not_mem_nil, or_false] at hmem
    rcases hmem with rfl | rfl | rfl <;> exact absurd hdg (by decide)
  cases val with
  | ofNat n => exact hd n
  | negSucc n =>
    rw [show toString (Int.negSucc n) = "-" ++ Nat.repr (n + 1) from rfl, String.toList_append]
    exact forall_mem_append.mpr ⟨all_eq_true.mp rfl, hd (n + 1)⟩

theorem isFree_of_mem_displacementText (displacement : Int) : ∀ c ∈ (displacementText displacement).toList, isFree c = true := by
  unfold displacementText
  split
  · exact forall_mem_nil _
  · exact isFree_of_mem_toString displacement

theorem isFree_of_mem_name (reg : Register) (width : Width) : ∀ c ∈ '%' :: (reg.name width).toList, isFree c = true := by
  refine all_eq_true.mp ?_
  cases width <;> cases reg <;> rfl

theorem IsName.isFree {name : String} (h : IsName name) : ∀ c ∈ name.toList, isFree c = true := by
  intro c hc
  have ho := h.2 c hc
  simp_all [Operand.isFree]

theorem closed_parts {opd : Operand} (h : opd.Named) : opd.parts.Closed := by
  have hi : ∀ {text : List Char}, (∀ c ∈ text, isFree c = true) → ∀ c ∈ text, (c != ')') = true := by
    intro text ht c hc
    have hf := ht c hc
    simp_all [isFree]
  have hr := fun reg => hi (isFree_of_mem_name reg .quad)
  cases opd with
  | register reg width => exact ⟨isFree_of_mem_name reg width, by rintro _ ⟨⟩⟩
  | immediate val => exact ⟨forall_mem_cons.mpr ⟨by decide, isFree_of_mem_toString val⟩, by rintro _ ⟨⟩⟩
  | symbol tgt => exact ⟨h.isFree, by rintro _ ⟨⟩⟩
  | relative tgt => exact ⟨h.isFree, by rintro _ ⟨⟩; exact all_eq_true.mp rfl⟩
  | indirect reg => exact ⟨forall_mem_nil _, by rintro _ ⟨⟩; exact hr reg⟩
  | displaced reg displacement => exact ⟨isFree_of_mem_displacementText _, by rintro _ ⟨⟩; exact hr reg⟩
  | indexed base index scale displacement =>
    refine ⟨isFree_of_mem_displacementText _, ?_⟩
    rintro _ ⟨⟩
    have hs := hi (isFree_of_mem_toString scale.toNat)
    have hb : ∀ c ∈ (base.map registerText).getD [], (c != ')') = true := by
      cases base with
      | none => exact forall_mem_nil _
      | some reg => exact hr reg
    refine forall_mem_append.mpr ⟨hb, forall_mem_cons.mpr ⟨by decide, forall_mem_cons.mpr ⟨by decide, ?_⟩⟩⟩
    exact forall_mem_append.mpr ⟨hr index, forall_mem_cons.mpr ⟨by decide, forall_mem_cons.mpr ⟨by decide, hs⟩⟩⟩

/-- An operand that is followed by a comma or by nothing ends where its parts end. -/
theorem Parts.text_inj {parts parts' : Parts} (h : parts.Closed) (h' : parts'.Closed) {rest rest' : List Char}
    (hr : ∀ c ∈ rest.head?, c = ',') (hr' : ∀ c ∈ rest'.head?, c = ',') (heq : parts.text ++ rest = parts'.text ++ rest') :
    parts = parts' ∧ rest = rest' := by
  obtain ⟨lead, inner⟩ := parts
  obtain ⟨lead', inner'⟩ := parts'
  simp only [text, append_assoc] at heq
  have hb : ∀ (inner : Option (List Char)) {rest : List Char}, (∀ c ∈ rest.head?, c = ',') →
      ∀ c ∈ (enclosed inner ++ rest).head?, isFree c = false := by
    intro inner rest hr c hc
    cases inner with
    | none => rw [hr c hc]; decide
    | some inner => cases hc; decide
  obtain ⟨rfl, ht⟩ := append_inj_of_stops isFree h.1 h'.1 (hb inner hr) (hb inner' hr') heq
  cases inner with
  | none =>
    cases inner' with
    | none => exact ⟨rfl, ht⟩
    | some inner' => exact absurd (hr '(' (by rw [show rest = _ from ht]; rfl)) (by decide)
  | some inner =>
    cases inner' with
    | none => exact absurd ( hr' '(' (by rw [show rest' = _ from ht.symm]; rfl)) (by decide)
    | some inner' =>
      simp only [enclosed, cons_append, append_assoc, cons.injEq, true_and] at ht
      obtain ⟨rfl, hcl⟩ := append_inj_of_stops (· != ')') (h.2 inner rfl) (h'.2 inner' rfl) (by simp) (by simp) ht
      exact ⟨rfl, (cons.inj hcl).2⟩

/-- Texts of operands with commas between them are the same only if all their parts are. -/
theorem Parts.joined_inj {all all' : List Parts} (h : ∀ parts ∈ all, parts.Closed) (h' : ∀ parts ∈ all', parts.Closed) (hne : all ≠ [])
    (hne' : all' ≠ []) (heq : [',', ' '].intercalate (all.map text) = [',', ' '].intercalate (all'.map text)) :
    all = all' := by
  induction all generalizing all' with
  | nil => exact absurd rfl hne
  | cons parts more ih =>
    cases all' with
    | nil => exact absurd rfl hne'
    | cons parts' more' =>
      obtain ⟨hc, hm⟩ := forall_mem_cons.mp h
      obtain ⟨hc', hm'⟩ := forall_mem_cons.mp h'
      have hf : ∀ (parts : Parts) (more : List Parts), ∃ rest, (∀ c ∈ rest.head?, c = ',') ∧
          [',', ' '].intercalate ((parts :: more).map text) = parts.text ++ rest ∧
          rest = if more = [] then [] else ',' :: ' ' :: [',', ' '].intercalate (more.map text) := by
        intro parts more
        cases more with
        | nil => exact ⟨[], by simp, by simp, rfl⟩
        | cons next more => exact ⟨_, by simp, by simp [intercalate_cons_cons], rfl⟩
      obtain ⟨rest, hcm, ht, hr⟩ := hf parts more
      obtain ⟨rest', hcm', ht', hr'⟩ := hf parts' more'
      rw [ht, ht'] at heq
      obtain ⟨rfl, rfl⟩ := text_inj hc hc' hcm hcm' heq
      rw [hr] at hr'
      split_ifs at hr' with hl hl' hl'
      · rw [hl, hl']
      · rw [ih hm hm' hl hl' (cons.inj (cons.inj hr').2).2]

/-! ### Parts tell the operand -/

/-- The kinds of operands. What a register points to is an address. -/
inductive Shape where
  | register
  | immediate
  | symbol
  | indexed
  | address
  | relative

/-- The kind of an operand. -/
def shape : Operand → Shape
  | .register .. => .register
  | .immediate _ => .immediate
  | .symbol _ => .symbol
  | .indexed .. => .indexed
  | .indirect _ | .displaced .. => .address
  | .relative _ => .relative

/-- The kind of an operand with these parts. -/
def Parts.shape (parts : Parts) : Shape :=
  match parts.2 with
  | none => if parts.1.head? = some '%' then .register else if parts.1.head? = some '$' then .immediate else .symbol
  | some inner => if ',' ∈ inner then .indexed else if inner = ['%', 'r', 'i', 'p'] then .relative else .address

theorem shape_parts {opd : Operand} (h : opd.Named) : opd.parts.shape = opd.shape := by
  have ha : ∀ (lead : List Char) (reg : Register), Parts.shape (lead, some (registerText reg)) = .address := by
    intro lead reg
    cases reg <;> rfl
  cases opd with
  | register reg width => rfl
  | immediate val => rfl
  | symbol tgt =>
    have hf : ∀ c ∈ ['%', '$'], tgt.toList.head? ≠ some c := by
      intro c hc heq
      have ho := h.2 c (mem_of_mem_head? heq)
      simp_all
    simp [Parts.shape, parts, shape, hf]
  | relative tgt => rfl
  | indirect reg => exact ha _ reg
  | displaced reg displacement => exact ha _ reg
  | indexed base index scale displacement => simp [Parts.shape, parts, shape]

theorem name_inj {reg reg' : Register} {width width' : Width} (h : reg.name width = reg'.name width') : reg = reg' ∧ width = width' := by
  have hn : ((Register.all.product [.quad, .long, .byte]).map fun entry => entry.1.name entry.2).Nodup := by decide +kernel
  have hmem : ∀ (reg : Register) (width : Width), (reg, width) ∈ Register.all.product [.quad, .long, .byte] := by
    intro reg width
    exact mem_product.mpr ⟨by cases reg <;> decide, by cases width <;> decide⟩
  exact Prod.mk.inj (inj_on_of_nodup_map hn (hmem reg width) (hmem reg' width') h)

theorem registerText_inj {reg reg' : Register} (h : registerText reg = registerText reg') : reg = reg' :=
  (name_inj (String.toList_inj.mp (cons.inj h).2)).1

theorem toString_int_inj {val value' : Int} (h : toString val = toString value') : val = value' := by
  have hs : ∀ (n : Nat) (rest : List Char), (toString n).toList ≠ '-' :: rest := by
    intro n rest heq
    rw [Nat.toString_eq_ofList_toDigits, String.toList_ofList] at heq
    exact absurd (Nat.isDigit_of_mem_toDigits (by decide) (by decide) (heq ▸ mem_cons_self)) (by decide)
  have hn : ∀ n : Nat, (toString (Int.negSucc n)).toList = '-' :: (toString (n + 1)).toList := by
    intro n
    rw [show toString (Int.negSucc n) = "-" ++ toString (n + 1) from rfl, String.toList_append]
    rfl
  have hl := congrArg String.toList h
  cases val with
  | ofNat n =>
    cases value' with
    | ofNat n' => rw [toString_nat_inj.mp h]
    | negSucc n' => exact absurd (hl.trans (hn n')) (hs n _)
  | negSucc n =>
    cases value' with
    | ofNat n' => exact absurd (hl.symm.trans (hn n)) (hs n' _)
    | negSucc n' =>
      rw [hn, hn] at hl
      rw [Nat.succ_inj.mp (toString_nat_inj.mp (String.toList_inj.mp (cons.inj hl).2))]

theorem displacementText_inj {displacement displacement' : Int} (h : displacementText displacement = displacementText displacement') :
    displacement = displacement' := by
  have hne : ∀ {val : Int}, toString val ≠ "" := by
    intro val
    cases val with
    | ofNat n => exact Nat.repr_ne_empty
    | negSucc n =>
      intro heq
      have hl := congrArg String.toList heq
      rw [show toString (Int.negSucc n) = "-" ++ Nat.repr (n + 1) from rfl, String.toList_append] at hl
      cases hl
  unfold displacementText at h
  split_ifs at h with hz hz' hz'
  · rw [hz, hz']
  · exact absurd h.symm hne
  · exact absurd h hne
  · exact toString_int_inj h

theorem exists_of_shape_address {opd : Operand} (h : opd.shape = .address) :
    ∃ reg displacement, opd.canonical = .displaced reg displacement ∧
      opd.parts = ((displacementText displacement).toList, some (registerText reg)) := by
  cases opd with
  | indirect reg => exact ⟨reg, 0, rfl, rfl⟩
  | displaced reg displacement => exact ⟨reg, displacement, rfl, rfl⟩
  | _ => cases h

/-- The parts tell the operand. -/
theorem canonical_eq_of_parts_eq {opd operand' : Operand} (h : opd.Named) (h' : operand'.Named)
    (heq : opd.parts = operand'.parts) : opd.canonical = operand'.canonical := by
  have hs : opd.shape = operand'.shape := by rw [← shape_parts h, ← shape_parts h', heq]
  by_cases ha : opd.shape = .address
  · obtain ⟨reg, displacement, hc, hp⟩ := exists_of_shape_address ha
    obtain ⟨reg', displacement', hc', hp'⟩ := exists_of_shape_address (hs ▸ ha)
    rw [hp, hp', Prod.mk.injEq, Option.some.injEq] at heq
    rw [hc, hc', displacementText_inj (String.toList_inj.mp heq.1), registerText_inj heq.2]
  · cases opd with
    | indirect | displaced => exact absurd rfl ha
    | register reg width =>
      cases operand' with
      | register reg' width' =>
        obtain ⟨rfl, rfl⟩ := name_inj (String.toList_inj.mp (cons.inj (Prod.mk.inj heq).1).2)
        rfl
      | _ => cases hs
    | immediate val =>
      cases operand' with
      | immediate value' => rw [toString_int_inj (String.toList_inj.mp (cons.inj (Prod.mk.inj heq).1).2)]
      | _ => cases hs
    | symbol tgt =>
      cases operand' with
      | symbol target' => rw [String.toList_inj.mp (Prod.mk.inj heq).1]
      | _ => cases hs
    | relative tgt =>
      cases operand' with
      | relative target' => rw [String.toList_inj.mp (Prod.mk.inj heq).1]
      | _ => cases hs
    | indexed base index scale displacement =>
      cases operand' with
      | indexed base' index' scale' displacement' =>
        obtain ⟨hl, hin⟩ := Prod.mk.inj heq
        have hcm : ∀ reg, ∀ c ∈ registerText reg, (c != ',') = true := by
          intro reg
          refine all_eq_true.mp ?_
          cases reg <;> rfl
        have hb : ∀ (base : Option Register), ∀ c ∈ (base.map registerText).getD [], (c != ',') = true := by
          intro base
          cases base with
          | none => exact forall_mem_nil _
          | some reg => exact hcm reg
        obtain ⟨hsm, hr⟩ := append_inj_of_stops (· != ',') (hb base) (hb base') (by simp) (by simp) (Option.some.inj hin)
        simp only [cons.injEq, true_and] at hr
        obtain ⟨hi, hsc⟩ := append_inj_of_stops (· != ',') (hcm index) (hcm index') (by simp) (by simp) hr
        simp only [cons.injEq, true_and] at hsc
        have hbs : base = base' := by
          cases base with
          | none =>
            cases base' with
            | none => rfl
            | some reg' => cases hsm
          | some reg =>
            cases base' with
            | none => cases hsm
            | some reg' => rw [registerText_inj hsm]
        rw [hbs, registerText_inj hi, displacementText_inj (String.toList_inj.mp hl),
          UInt8.toNat_inj.mp (toString_nat_inj.mp (String.toList_inj.mp hsc))]
      | _ => cases hs

end Operand

/-! ## Instructions -/

namespace Instruction

/-- The parts of an operand of an instruction, with the star. -/
def operandParts (mnemonic : Mnemonic) (operand : Operand) : Operand.Parts :=
  ((if mnemonic.isBranch && !operand.isDirectTarget then ['*'] else []) ++ operand.parts.1, operand.parts.2)

theorem toList_operandText (mnemonic : Mnemonic) (opd : Operand) :
    (operandText mnemonic opd).toList = (operandParts mnemonic opd).text := by
  rw [operandText, String.toList_append, opd.toList_text, operandParts, Operand.Parts.text, Operand.Parts.text, append_assoc]
  split <;> rfl

theorem closed_operandParts {opd : Operand} (h : opd.Named) (mnemonic : Mnemonic) : (operandParts mnemonic opd).Closed := by
  obtain ⟨hl, hi⟩ := Operand.closed_parts h
  refine ⟨forall_mem_append.mpr ⟨all_eq_true.mp ?_, hl⟩, hi⟩
  split <;> rfl

/-- A branch target with a star is not a symbol, and a symbol does not start with a star. -/
theorem canonical_eq_of_operandParts_eq {opd operand' : Operand} (h : opd.Named) (h' : operand'.Named) {mnemonic : Mnemonic}
    (heq : operandParts mnemonic opd = operandParts mnemonic operand') : opd.canonical = operand'.canonical := by
  have hs : ∀ {opd : Operand}, opd.Named → opd.isDirectTarget = true → ∀ rest, opd.parts.1 ≠ '*' :: rest := by
    intro opd hn hd rest hl
    cases opd with
    | symbol tgt =>
      have hmem : '*' ∈ tgt.toList := by
        rw [show tgt.toList = '*' :: rest from hl]
        exact mem_cons_self
      exact absurd (by decide) (hn.2 '*' hmem)
    | _ => cases hd
  refine Operand.canonical_eq_of_parts_eq h h' (Prod.ext ?_ (Prod.mk.inj heq).2)
  have hl := (Prod.mk.inj heq).1
  simp only [Bool.and_eq_true, Bool.not_eq_true'] at hl
  split_ifs at hl with hm hm' hm'
  · exact (cons.inj hl).2
  · exact absurd hl.symm (hs h' (by simpa [hm.1] using hm') _)
  · exact absurd hl (hs h (by simpa [hm'.1] using hm) _)
  · exact hl

theorem canonical_eq_of_map_operandParts_eq {mnemonic : Mnemonic} {opds operands' : List Operand}
    (h : ∀ opd ∈ opds, opd.Named) (h' : ∀ opd ∈ operands', opd.Named)
    (heq : opds.map (operandParts mnemonic) = operands'.map (operandParts mnemonic)) :
    opds.map Operand.canonical = operands'.map Operand.canonical := by
  induction opds generalizing operands' with
  | nil => rw [map_eq_nil_iff.mp heq.symm]
  | cons opd more ih =>
    cases operands' with
    | nil => cases heq
    | cons operand' more' =>
      obtain ⟨hn, hm⟩ := forall_mem_cons.mp h
      obtain ⟨hn', hm'⟩ := forall_mem_cons.mp h'
      obtain ⟨hf, hr⟩ := cons.inj heq
      rw [map_cons, map_cons, canonical_eq_of_operandParts_eq hn hn' hf, ih hm hm' hr]

theorem toList_text (instr : Instruction) : instr.text.toList = (mnemonicText instr.mnemonic instr.size).toList ++
      if instr.operands = [] then []
      else ' ' :: [',', ' '].intercalate ((instr.operands.map (operandParts instr.mnemonic)).map Operand.Parts.text) := by
  have hp : (instr.operands.map (operandText instr.mnemonic)).map String.toList =
      (instr.operands.map (operandParts instr.mnemonic)).map Operand.Parts.text := by
    rw [map_map, map_map]
    exact map_congr_left fun opd _ => toList_operandText instr.mnemonic opd
  rw [text, ← hp]
  cases ho : instr.operands with
  | nil => simp [mnemonicText]
  | cons opd more => simp [mnemonicText, String.toList_intercalate]

/-- Instructions with the same text do the same to the same operands: the mnemonic, the size and each operand can be read from it. -/
theorem eq_of_text_eq {instruction instruction' : Instruction} (h : ∀ operand ∈ instruction.operands, operand.Named)
    (h' : ∀ operand ∈ instruction'.operands, operand.Named) (heq : instruction.text = instruction'.text) :
    instruction.mnemonic = instruction'.mnemonic ∧ instruction.size = instruction'.size ∧
      instruction.operands.map Operand.canonical = instruction'.operands.map Operand.canonical := by
  have hspace : ∀ (instruction : Instruction) (joined : List Char),
      ∀ c ∈ (if instruction.operands = [] then [] else ' ' :: joined).head?, (c != ' ') = false := by
    intro instruction joined c hc
    split at hc
    · cases hc
    · rw [← Option.some.inj hc]; decide
  have hlist := congrArg String.toList heq
  rw [toList_text, toList_text] at hlist
  obtain ⟨hfront, hback⟩ := append_inj_of_stops (· != ' ') (ne_space_of_mem_mnemonicText _ _) (ne_space_of_mem_mnemonicText _ _)
    (hspace instruction _) (hspace instruction' _) hlist
  obtain ⟨hmnemonic, hsize⟩ := mnemonicText_inj (String.toList_inj.mp hfront)
  refine ⟨hmnemonic, hsize, ?_⟩
  split_ifs at hback with hnone hnone' hnone'
  · rw [hnone, hnone']
  · rw [hmnemonic] at hback
    refine canonical_eq_of_map_operandParts_eq h h' (Operand.Parts.joined_inj ?_ ?_ ?_ ?_ (List.cons.inj hback).2)
    · exact forall_mem_map.mpr fun operand hoperand => closed_operandParts (h operand hoperand) _
    · exact forall_mem_map.mpr fun operand hoperand => closed_operandParts (h' operand hoperand) _
    · simpa using hnone
    · simpa using hnone'

theorem eq_of_text_eq_call : let target : Operand := .indexed (some .rax) .rcx 8 0
    let instruction : Instruction := ⟨.call, some .quad, [.indirect .rdi, target, .relative "table"]⟩
    let instruction' : Instruction := ⟨.call, some .quad, [.displaced .rdi 0, target, .relative "table"]⟩
    instruction ≠ instruction' ∧ instruction.operands.map Operand.canonical = instruction'.operands.map Operand.canonical := by
  refine ⟨by decide, (eq_of_text_eq ?_ ?_ (by decide +kernel)).2.2⟩ <;> simp [Operand.Named, Operand.IsName]

end Instruction

end TagAsm.Asm
