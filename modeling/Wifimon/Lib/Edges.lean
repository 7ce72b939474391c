/-
  Rising edges of a sampled signal.

  `before last h i` is the sample in front of the sample number `i`, and `last` in front of the
  first one. A detector that compares each sample with the one before it fires at the rising edges
  (`FiresAt`). It fires once for each time the signal is held: between two firings the signal was
  released (`FiresAt.released`), and whenever the signal comes to be held the detector fires
  (`exists_firesAt`).

  Nothing here knows which program is being verified.
-/
import Mathlib.Tactic.Common

namespace EdgeLib

/-- The sample before the sample number `i`. -/
def before (last : Bool) (h : Nat → Bool) : Nat → Bool
  | 0 => last
  | i + 1 => h i

/-- The signal rises at the sample number `i`. -/
def FiresAt (last : Bool) (h : Nat → Bool) (i : Nat) : Prop := h i = true ∧ before last h i = false

instance (last : Bool) (h : Nat → Bool) (i : Nat) : Decidable (FiresAt last h i) :=
  inferInstanceAs (Decidable (_ ∧ _))

variable {last : Bool} {h : Nat → Bool}

/-- Between two firings the signal is released. -/
theorem FiresAt.released {i j : Nat} (hij : i < j) (hi : FiresAt last h i) (hj : FiresAt last h j) :
    ∃ k, i < k ∧ k < j ∧ h k = false := by
  obtain ⟨k, rfl⟩ := Nat.exists_eq_add_of_lt hij
  have hlow : h (i + k) = false := hj.2
  cases k with
  | zero =>
    rw [Nat.add_zero, hi.1] at hlow
    cases hlow
  | succ k => exact ⟨i + (k + 1), by omega, by omega, hlow⟩

/-- A signal that is low before the sample number `i` and high at a later one rises between them. -/
theorem exists_firesAt {i : Nat} (hi : before last h i = false) {j : Nat} (hij : i ≤ j)
    (hj : h j = true) : ∃ k, i ≤ k ∧ k ≤ j ∧ FiresAt last h k := by
  obtain ⟨d, rfl⟩ := Nat.exists_eq_add_of_le hij
  induction d with
  | zero => exact ⟨i, Nat.le_refl i, Nat.le_refl i, hj, hi⟩
  | succ d ih =>
    by_cases hprev : h (i + d) = true
    · obtain ⟨k, hik, hkj, hk⟩ := ih (Nat.le_add_right ..) hprev
      exact ⟨k, hik, by omega, hk⟩
    · exact ⟨i + d + 1, by omega, Nat.le_refl _, hj, Bool.eq_false_iff.mpr hprev⟩

end EdgeLib
