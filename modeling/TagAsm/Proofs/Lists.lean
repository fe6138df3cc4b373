import Mathlib.Data.List.Forall2

/-!
# Steps that can fail, and lists of them

What is known of the parts if a row of steps has a result, and of lists that are related element by element.
-/

namespace TagAsm

open List

variable {α β ε : Type}

/-! ## Related lists -/

/-- A list of answers is what the single answers are. -/
theorem mapM_eq_ok_iff_forall₂ (f : α → Except ε β) (xs : List α) (ys : List β) :
    xs.mapM f = .ok ys ↔ Forall₂ (fun x y => f x = .ok y) xs ys := by
  induction xs generalizing ys with
  | nil =>
    rw [mapM_nil, forall₂_nil_left_iff]
    exact ⟨fun h => (Except.ok.inj h).symm, fun h => h ▸ rfl⟩
  | cons x xs ih =>
    rw [mapM_cons, forall₂_cons_left_iff]
    cases hx : f x with
    | error fault =>
      refine ⟨fun h => (by cases h), ?_⟩
      rintro ⟨y, _, hy, -⟩
      cases hy
    | ok y =>
      cases hxs : xs.mapM f with
      | error fault =>
        refine ⟨fun h => (by cases h), ?_⟩
        rintro ⟨_, rest, -, hr, -⟩
        rw [(ih rest).mpr hr] at hxs
        cases hxs
      | ok rest =>
        constructor
        · intro h
          obtain rfl : y :: rest = ys := Except.ok.inj h
          exact ⟨y, rest, rfl, (ih rest).mp hxs, rfl⟩
        · rintro ⟨y', rest', hy, hr, rfl⟩
          rw [(ih rest').mpr hr] at hxs
          cases hy
          cases hxs
          rfl

/-- If every single answer is there, so is the list of answers. -/
theorem exists_mapM_eq_ok (f : α → Except ε β) (xs : List α) (h : ∀ x ∈ xs, ∃ y, f x = .ok y) : ∃ ys, xs.mapM f = .ok ys := by
  induction xs with
  | nil => exact ⟨[], rfl⟩
  | cons x xs ih =>
    obtain ⟨y, hy⟩ := h x (by simp)
    obtain ⟨ys, hys⟩ := ih fun x hx => h x (by simp [hx])
    exact ⟨y :: ys, by rw [mapM_cons, hy, hys]; rfl⟩

/-- Related lists are related at every place. -/
theorem getElem?_of_forall₂ {R : α → β → Prop} {xs : List α} {ys : List β} (h : List.Forall₂ R xs ys) {i : Nat} {x : α}
    (hx : xs[i]? = some x) : ∃ y, ys[i]? = some y ∧ R x y := by
  obtain ⟨hi, rfl⟩ := List.getElem?_eq_some_iff.mp hx
  have hi' : i < ys.length := h.length_eq ▸ hi
  exact ⟨ys[i], getElem?_eq_getElem hi', by simpa using h.get hi hi'⟩

/-- A member of one of two related lists is related to a member of the other. -/
theorem exists_mem_of_forall₂ {R : α → β → Prop} {xs : List α} {ys : List β} (h : Forall₂ R xs ys) {x : α} (hx : x ∈ xs) :
    ∃ y ∈ ys, R x y := by
  obtain ⟨i, hi⟩ := getElem?_of_mem hx
  obtain ⟨y, hy, hr⟩ := getElem?_of_forall₂ h hi
  exact ⟨y, mem_of_getElem? hy, hr⟩

theorem forall₂_imp_of_mem {R S : α → β → Prop} {xs : List α} {ys : List β} (h : Forall₂ R xs ys)
    (hi : ∀ x ∈ xs, ∀ y, R x y → S x y) : Forall₂ S xs ys :=
  ((forall₂_and_left _ _).mpr ⟨fun _ hx => hx, h⟩).imp fun x y hxy => hi x hxy.1 y hxy.2

/-- Two lists that go along with a third one go along with each other. -/
theorem forall₂_of_forall₂ {γ : Type} {R : α → β → Prop} {S : α → γ → Prop} {T : β → γ → Prop}
    (h : ∀ a b c, R a b → S a c → T b c) {as : List α} {bs : List β} {cs : List γ} (hR : Forall₂ R as bs)
    (hS : Forall₂ S as cs) : Forall₂ T bs cs := by
  induction hR generalizing cs with
  | nil =>
    cases hS
    exact .nil
  | cons hf _ ih =>
    cases hS with
    | cons ho hr => exact .cons (h _ _ _ hf ho) (ih hr)

/-! ## Steps -/

variable {res : β}

/-- What came out of two steps came out of the second, run with what came out of the first. -/
theorem of_bind_eq_ok {first : Except ε α} {next : α → Except ε β} (h : first >>= next = .ok res) :
    ∃ mid, first = .ok mid ∧ next mid = .ok res := by
  cases first with
  | error fault => exact nomatch h
  | ok mid => exact ⟨mid, rfl, h⟩

theorem ok_pair_inj {a a' : α} {b b' : β} (h : (.ok (a, b) : Except ε (α × β)) = .ok (a', b')) : a = a' ∧ b = b' :=
  Prod.mk.inj (Except.ok.inj h)

theorem forall_mem_pair {P : α → Prop} {a b : α} (ha : P a) (hb : P b) : ∀ x ∈ [a, b], P x :=
  List.forall_mem_cons.mpr ⟨ha, List.forall_mem_singleton.mpr hb⟩

/-- What comes out of a step, and is as seen through `view`. -/
theorem exists_of_map_eq_ok {step : Except ε α} {view : α → β} {seen : β} (h : step.map view = .ok seen) :
    ∃ res, step = .ok res ∧ view res = seen := by
  cases step with
  | error fault => cases h
  | ok res => exact ⟨res, rfl, Except.ok.inj h⟩

variable {step : β → α → Except ε β} {state : β}

/-- What every step of a loop keeps, the loop keeps. -/
theorem foldlM_keeps (P : β → Prop) (hst : ∀ state item next, P state → step state item = .ok next → P next) (items : List α)
    (hs : P state) (h : items.foldlM step state = .ok res) : P res := by
  induction items generalizing state with
  | nil =>
    cases h
    exact hs
  | cons item rest ih =>
    obtain ⟨next, hn, hr⟩ := of_bind_eq_ok h
    exact ih (hst state item next hs hn) hr

/-- What holds before a loop and is carried from each item to the next, the items gone through counted in, holds after it. -/
theorem foldlM_reaches (P : List α → β → Prop)
    (hst : ∀ done state item next, P done state → step state item = .ok next → P (done ++ [item]) next) (items : List α)
    (hs : P [] state) (h : items.foldlM step state = .ok res) : P items res := by
  have hr : ∀ (rest done : List α) (state : β), P done state → rest.foldlM step state = .ok res → P (done ++ rest) res := by
    intro rest
    induction rest with
    | nil =>
      intro done state hd h
      cases h
      simpa using hd
    | cons item rest ih =>
      intro done state hd h
      obtain ⟨next, hn, h⟩ := of_bind_eq_ok h
      simpa using ih (done ++ [item]) next (hst done state item next hd hn) h
  exact hr items [] state hs h

end TagAsm
