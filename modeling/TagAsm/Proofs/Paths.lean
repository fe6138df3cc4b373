import TagAsm.Proofs.Machine

/-!
# Paths through code

Something that is kept track of while items are passed in their order (`scan`) is kept track of just as well along every path
that control can take, if jumps do not change it: what is known at a jump has to be what is known at the labels that it goes to
(`Joined`). Jumps are joined where the same is known at all labels and jumps, which can be seen part by part (`Passes`).
-/

namespace TagAsm.Asm

open List Option

/-! ## Where control goes -/

/-- The label that an instruction can jump to. -/
def Instruction.target? (op : Instruction) : Option String :=
  match op.mnemonic, op.operands with
  | .jmp, [.symbol name] | .jne, [.symbol name] | .je, [.symbol name] => some name
  | _, _ => none

/-- Whether control can go on to the next item. The system call that is used ends the process. -/
def Instruction.goesOn (op : Instruction) : Bool :=
  match op.mnemonic with
  | .jmp | .ret | .syscall => false
  | _ => true

namespace Item

/-- Whether control can go on to the next item. -/
def goesOn : Item → Bool
  | .instruction op => op.goesOn
  | .data _ => false
  | _ => true

/-- The label that an item can jump to. -/
def target? : Item → Option String
  | .instruction op => op.target?
  | _ => none

/-- Whether paths come together or part here. -/
def isJoint : Item → Bool
  | .label _ => true
  | item => item.target?.isSome

end Item

/-- Control can go from the item with the first number to the one with the second. -/
inductive Flows (items : List Item) : Nat → Nat → Prop where
  | next {place : Nat} {item : Item} (hitem : items[place]? = some item) (hgoes : item.goesOn = true) : Flows items place (place + 1)
  | jump {place goal : Nat} {item : Item} {name : String} (hitem : items[place]? = some item)
    (htarget : item.target? = some name) (hlabel : items[goal]? = some (.label name)) : Flows items place goal

theorem Flows.getElem? {items : List Item} {place goal : Nat} (h : Flows items place goal) : ∃ item, items[place]? = some item := by
  cases h with
  | next hi _ => exact ⟨_, hi⟩
  | jump hi _ _ => exact ⟨_, hi⟩

/-! ## Keeping track of something -/

section

variable {σ : Type} (step : σ → Item → Option σ)

/-- Passes items in their order. -/
def scan (state : σ) (items : List Item) : Option σ := items.foldlM step state

@[simp] theorem scan_nil (state : σ) : scan step state [] = some state := rfl

@[simp] theorem scan_cons (state : σ) (item : Item) (rest : List Item) :
    scan step state (item :: rest) = (step state item).bind fun next => scan step next rest := rfl

@[simp] theorem scan_append (state : σ) (first rest : List Item) :
    scan step state (first ++ rest) = (scan step state first).bind fun next => scan step next rest :=
  foldlM_append

/-- What is known when control has come to an item along some path from the first one. -/
inductive Tracks (items : List Item) (start : σ) : Nat → σ → Prop where
  | start : Tracks items start 0 start
  | flow {place goal : Nat} {state next : σ} {item : Item} (hbefore : Tracks items start place state)
    (hitem : items[place]? = some item) (hstep : step state item = some next) (hflows : Flows items place goal) :
    Tracks items start goal next

/-- What is known after a jump is what is known at the labels that it goes to. -/
def Joined (items : List Item) (start : σ) : Prop :=
  ∀ place goal item name, items[place]? = some item → item.target? = some name → items[goal]? = some (.label name) →
    scan step start (items.take (place + 1)) = scan step start (items.take goal)

variable {step} {items : List Item} {start state : σ} {place : Nat} {item : Item}

theorem scan_take_succ {next : σ} (h : scan step start (items.take place) = some state) (hi : items[place]? = some item)
    (hs : step state item = some next) : scan step start (items.take (place + 1)) = some next := by
  rw [take_add_one, hi, toList_some, scan_append, h, bind_some, scan_cons, hs, bind_some, scan_nil]

/-- In joined code the path does not matter. -/
theorem Joined.scan_of_tracks (hj : Joined step items start) (h : Tracks step items start place state) :
    scan step start (items.take place) = some state := by
  induction h with
  | start => rfl
  | flow _ hi hs hf ih =>
    have hn := scan_take_succ ih hi hs
    cases hf with
    | next => exact hn
    | jump hi' ht hl => rw [← hj _ _ _ _ hi' ht hl, hn]

/-- Control does not come to the end of code whose last item is a label that is not jumped to, after an item that does not go
on. -/
theorem Tracks.lt_of_stop {before : List Item} {stop : Item} {name : String} (h : Tracks step items start place state)
    (hit : items = before ++ [stop, .label name]) (hs : stop.goesOn = false)
    (hts : ∀ item ∈ items, item.target? ≠ some name) : place < before.length + 1 := by
  induction h with
  | start => exact Nat.succ_pos _
  | @flow place goal state next item _ hi _ hf ih =>
    cases hf with
    | next hi' hg =>
      refine Nat.lt_of_le_of_ne ih fun hend => ?_
      obtain rfl : place = before.length := Nat.succ.inj hend
      rw [hit, getElem?_append_right (Nat.le_refl _), Nat.sub_self] at hi'
      obtain rfl : stop = _ := some.inj hi'
      exact absurd (hg.symm.trans hs) (by decide)
    | @jump _ item name' hi' ht hl =>
      have hlt : goal < before.length + 2 := by
        have hln := (List.getElem?_eq_some_iff.mp hl).1
        rwa [hit, length_append] at hln
      refine Nat.lt_of_le_of_ne (Nat.le_of_lt_succ hlt) fun hend => ?_
      rw [hend, hit, getElem?_append_right (Nat.le_add_right _ 1), Nat.add_sub_cancel_left] at hl
      obtain rfl : name = name' := Item.label.inj (some.inj hl)
      exact hts item (mem_of_getElem? hi') ht

/-! ## Items that fit -/

variable (step) (Fits : σ → Item → Prop)

/-- Passing the items leads from one state to the other, and each item fits what is known in front of it. -/
structure Passes (before : σ) (items : List Item) (after : σ) : Prop where
  ends : scan step before items = some after
  fits : ∀ first item rest, items = first ++ item :: rest → ∃ now, scan step before first = some now ∧ Fits now item

variable {step Fits} {before between after : σ}

theorem Passes.nil (state : σ) : Passes step Fits state [] state := by
  refine ⟨rfl, fun first item rest h => ?_⟩
  simp at h

theorem Passes.cons {rest : List Item} (hs : step before item = some between) (hf : Fits before item)
    (hr : Passes step Fits between rest after) : Passes step Fits before (item :: rest) after := by
  constructor
  · rw [scan_cons, hs, bind_some, hr.ends]
  · intro first other more h
    cases first with
    | nil =>
      obtain ⟨rfl, -⟩ := cons.inj h
      exact ⟨before, rfl, hf⟩
    | cons head first =>
      obtain ⟨rfl, hm⟩ := cons.inj h
      obtain ⟨now, hnow, ho⟩ := hr.fits first other more hm
      refine ⟨now, ?_, ho⟩
      rw [scan_cons, hs, bind_some, hnow]

theorem Passes.append {first rest : List Item} (hf : Passes step Fits before first between)
    (hr : Passes step Fits between rest after) : Passes step Fits before (first ++ rest) after := by
  induction first generalizing before with
  | nil =>
    obtain rfl := some.inj hf.ends
    exact hr
  | cons item first ih =>
    obtain ⟨now, hnow, hft⟩ := hf.fits [] item first rfl
    cases hnow
    obtain ⟨next, hs, he⟩ := bind_eq_some_iff.mp hf.ends
    refine .cons hs hft (ih ⟨he, fun start other more h => ?_⟩)
    obtain ⟨now, hnow, ho⟩ := hf.fits (item :: start) other more (by rw [h, cons_append])
    rw [scan_cons, hs, bind_some] at hnow
    exact ⟨now, hnow, ho⟩

theorem Passes.single (hs : step before item = some after) (hf : Fits before item) : Passes step Fits before [item] after :=
  .cons hs hf (.nil after)

theorem Passes.mono {Fits' : σ → Item → Prop} (h : Passes step Fits before items after)
    (himp : ∀ item ∈ items, ∀ state, Fits state item → Fits' state item) : Passes step Fits' before items after := by
  refine ⟨h.ends, fun first item rest hs => ?_⟩
  obtain ⟨now, hnow, hf⟩ := h.fits first item rest hs
  exact ⟨now, hnow, himp item (hs ▸ mem_append_right _ mem_cons_self) now hf⟩

variable {head region tail : List Item}

/-- An item that lies neither in front nor behind lies in between. -/
theorem exists_of_append_eq {before after : List Item} (h : head ++ (region ++ tail) = before ++ item :: after)
    (hh : item ∉ head) (ht : item ∉ tail) :
    ∃ first rest, region = first ++ item :: rest ∧ before = head ++ first ∧ after = rest ++ tail := by
  have hin : ∀ between, region ++ tail = between ++ item :: after → ∃ rest, region = between ++ item :: rest ∧ after = rest ++ tail := by
    intro between heq
    rcases append_eq_append_iff.mp heq with ⟨more, -, hm⟩ | ⟨more, hr, hm⟩
    · exact absurd (hm ▸ mem_append_right _ mem_cons_self) ht
    · cases more with
      | nil => exact absurd (nil_append tail ▸ hm ▸ mem_cons_self) ht
      | cons other rest =>
        obtain ⟨rfl, hrs⟩ := cons.inj hm
        exact ⟨rest, hr, hrs⟩
  rcases append_eq_append_iff.mp h with ⟨between, hb, heq⟩ | ⟨between, hb, heq⟩
  · obtain ⟨rest, hr, ha⟩ := hin between heq
    exact ⟨between, rest, hr, hb, ha⟩
  · cases between with
    | nil =>
      obtain ⟨rest, hr, ha⟩ := hin [] heq.symm
      exact ⟨[], rest, hr, by rw [hb, append_nil, append_nil], ha⟩
    | cons other more =>
      obtain ⟨rfl, -⟩ := cons.inj heq
      exact absurd (hb ▸ mem_append_right _ mem_cons_self) hh

theorem take_append_cons_drop (h : items[place]? = some item) : items.take place ++ item :: items.drop (place + 1) = items := by
  obtain ⟨hlt, rfl⟩ := List.getElem?_eq_some_iff.mp h
  rw [getElem_cons_drop, take_append_drop]

section

variable (h : Passes step Fits before items after) (hi : items[place]? = some item)
include h hi

/-- Each item of passed code fits what is known in front of it. -/
theorem Passes.fits_getElem? : ∃ now, scan step before (items.take place) = some now ∧ Fits now item :=
  h.fits (items.take place) item (items.drop (place + 1)) (take_append_cons_drop hi).symm

/-- What is known in front of an item of passed code says what is known after it. -/
theorem Passes.exists_step {now : σ} (hnow : scan step before (items.take place) = some now) : ∃ next, step now item = some next := by
  have he := h.ends
  rw [← take_append_cons_drop hi, scan_append, hnow, bind_some, scan_cons] at he
  obtain ⟨next, hs, -⟩ := bind_eq_some_iff.mp he
  exact ⟨next, hs⟩

end

/-- Jumps are joined if they all lie in a region at whose labels and jumps the same is known, and the labels that they go to are
nowhere else. -/
theorem joined_of_passes {last : σ} (hh : scan step start head = some state) (hr : Passes step Fits state region last)
    (hlv : ∀ now item, Fits now item → item.isJoint = true → now = state)
    (hjm : ∀ item, item.target?.isSome = true → step state item = some state)
    (hst : ∀ item ∈ head ++ tail, item.target? = none)
    (hls : ∀ item ∈ region, ∀ name, item.target? = some name → Item.label name ∉ head ∧ Item.label name ∉ tail) :
    Joined step (head ++ (region ++ tail)) start := by
  -- A joint of the region is passed in the state in which the region is entered.
  have hat : ∀ place item, (head ++ (region ++ tail))[place]? = some item → item ∉ head → item ∉ tail → item.isJoint = true →
      item ∈ region ∧ scan step start ((head ++ (region ++ tail)).take place) = some state := by
    intro place item hi hnh hnt hj
    obtain ⟨first, rest, hsp, hb, -⟩ := exists_of_append_eq (take_append_cons_drop hi).symm hnh hnt
    obtain ⟨now, hnow, hf⟩ := hr.fits first item rest hsp
    refine ⟨hsp ▸ mem_append_right _ mem_cons_self, ?_⟩
    rw [hb, scan_append, hh, bind_some, hnow, hlv now item hf hj]
  intro place goal item name hi ht hl
  have hs : item.target?.isSome = true := by rw [ht]; rfl
  have ha : item ∉ head ∧ item ∉ tail := by
    constructor <;> intro hmem
    · rw [hst item (mem_append_left _ hmem)] at ht
      cases ht
    · rw [hst item (mem_append_right _ hmem)] at ht
      cases ht
  have hj : item.isJoint = true := by
    cases item with
    | instruction op => exact hs
    | _ => cases ht
  obtain ⟨hmem, hsc⟩ := hat place item hi ha.1 ha.2 hj
  obtain ⟨hnh, hnt⟩ := hls item hmem name ht
  rw [scan_take_succ hsc hi (hjm item hs), (hat goal _ hl hnh hnt rfl).2]

end

end TagAsm.Asm
