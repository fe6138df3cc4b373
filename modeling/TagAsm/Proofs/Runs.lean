import Mathlib.Data.List.Infix

/-!
# Runs and their agreement

A run may never end, so two runs are compared by what each of them has shown after finitely many steps. They agree if
whatever one of them shows is shown by the other as well, and if the end of one is the end of the other. How many steps it
takes does not matter.
-/

namespace TagAsm

/-- What has been seen of a run so far, and whether the run is over. -/
structure Progress (ε : Type) where
  events : List ε
  ended : Bool
  deriving DecidableEq, Repr

/-- The progress of a run after so many steps. -/
abbrev Run (ε : Type) := Nat → Progress ε

namespace Run

variable {ε : Type} {a b c : Run ε}

/-- Whatever `a` shows, `b` shows sooner or later, and if `a` ends then `b` ends having shown the same. -/
def Within (a b : Run ε) : Prop :=
  ∀ n, ∃ m, (a n).events <+: (b m).events ∧ ((a n).ended = true → b m = a n)

/-- The two runs show the same: both end after the same events, or neither ends and every finite part of what one of them
shows is a part of what the other shows. -/
def Agree (a b : Run ε) : Prop := a.Within b ∧ b.Within a

/-- The run as seen by someone who overlooks some of the events. -/
def only (seen : ε → Bool) (run : Run ε) : Run ε := fun n => ⟨(run n).events.filter seen, (run n).ended⟩

/-- A run that takes nothing back, and stands still once it has ended. -/
def Steady (run : Run ε) : Prop :=
  ∀ n m, n ≤ m → (run n).events <+: (run m).events ∧ ((run n).ended = true → run m = run n)

theorem Within.trans (hab : a.Within b) (hbc : b.Within c) : a.Within c := by
  intro n
  obtain ⟨m, hm, hend⟩ := hab n
  obtain ⟨k, hk, hend'⟩ := hbc m
  refine ⟨k, hm.trans hk, fun h => ?_⟩
  have hbm := hend h
  rw [hend' (hbm ▸ h), hbm]

theorem Agree.refl (a : Run ε) : a.Agree a :=
  ⟨fun n => ⟨n, List.prefix_refl _, fun _ => rfl⟩, fun n => ⟨n, List.prefix_refl _, fun _ => rfl⟩⟩

theorem Agree.symm (h : a.Agree b) : b.Agree a := ⟨h.2, h.1⟩

theorem Agree.trans (hab : a.Agree b) (hbc : b.Agree c) : a.Agree c := ⟨hab.1.trans hbc.1, hbc.2.trans hab.2⟩

/-- It is enough to look at single steps. -/
theorem steady_of_succ {run : Run ε}
    (h : ∀ n, (run n).events <+: (run (n + 1)).events ∧ ((run n).ended = true → run (n + 1) = run n)) : run.Steady := by
  intro n m hnm
  induction m, hnm using Nat.le_induction with
  | base => exact ⟨List.prefix_refl _, fun _ => rfl⟩
  | succ m _ ih =>
    refine ⟨ih.1.trans (h m).1, fun hend => ?_⟩
    have hm := ih.2 hend
    rw [(h m).2 (hm ▸ hend), hm]

/-- Who overlooks events still sees a steady run. -/
theorem Steady.only {run : Run ε} (h : run.Steady) (seen : ε → Bool) : (run.only seen).Steady := by
  intro n m hnm
  refine ⟨(h n m hnm).1.filter seen, fun hend => ?_⟩
  simp only [Run.only, (h n m hnm).2 hend]

/-- Two runs agree if each stage of the first is a stage of the second, which gets there not sooner than the first unless it
has ended. -/
theorem agree_of_catchUp (hb : b.Steady) (h : ∀ n, ∃ m, (n ≤ m ∨ (b m).ended = true) ∧ a n = b m) : a.Agree b := by
  constructor
  · intro n
    obtain ⟨m, -, heq⟩ := h n
    exact ⟨m, heq ▸ List.prefix_refl _, fun _ => heq.symm⟩
  · intro k
    obtain ⟨m, hl, heq⟩ := h k
    refine ⟨k, ?_⟩
    rw [heq]
    rcases Nat.le_total k m with hkm | hmk
    · refine ⟨(hb k m hkm).1, fun hend => (hb k m hkm).2 hend⟩
    · rcases hl with hkm | hend
      · obtain rfl : k = m := Nat.le_antisymm hkm hmk
        exact ⟨List.prefix_refl _, fun _ => rfl⟩
      · rw [(hb m k hmk).2 hend]
        exact ⟨List.prefix_refl _, fun _ => rfl⟩

end Run

end TagAsm
