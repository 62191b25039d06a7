import Mathlib

/-!
# `Temporal.Cusum` — the one-sided cumulative sum

`cusum f s n` adds the increments of `f` from `s` on and drops to 0 whenever the sum would be negative. Without
looking back it keeps the greatest sum over the stretches that end where it stands (`cusum_isGreatest`), so it
exceeds a bound exactly when some stretch does (`lt_cusum_iff`).
-/

namespace Lib

universe u

section Stretch
variable {α : Type u} [AddCommGroup α] {f : ℕ → α} {s e : ℕ}

/-- The sum of the increments from `s` on and before `e`. -/
def stretch (f : ℕ → α) (s e : ℕ) : α := ∑ j ∈ Finset.Ico s e, f j

theorem stretch_self : stretch f s s = 0 := by simp [stretch]

theorem stretch_succ (hse : s ≤ e) : stretch f s (e + 1) = stretch f s e + f e :=
  Finset.sum_Ico_succ_top hse f

end Stretch

section Cusum
variable {α : Type u} [AddCommGroup α] [LinearOrder α] [IsOrderedAddMonoid α] {f : ℕ → α} {s n : ℕ} {h : α}

/-- The cumulative sum after `n` increments from `s` on, never negative. -/
def cusum (f : ℕ → α) (s : ℕ) : ℕ → α
  | 0 => 0
  | n + 1 => max 0 (cusum f s n + f (s + n))

/-- **The greatest sum of a stretch that ends here**, the empty one included. -/
theorem cusum_isGreatest : IsGreatest {v | ∃ t, s ≤ t ∧ t ≤ s + n ∧ v = stretch f t (s + n)} (cusum f s n) := by
  induction n with
  | zero =>
      refine ⟨⟨s, le_rfl, le_rfl, stretch_self.symm⟩, ?_⟩
      rintro v ⟨t, hst, hts, rfl⟩
      obtain rfl := Nat.le_antisymm hst hts
      exact stretch_self.le
  | succ n ih =>
      have hend : s + (n + 1) = s + n + 1 := rfl
      constructor
      · obtain ⟨t, hst, hts, ht⟩ := ih.1
        rcases max_choice 0 (cusum f s n + f (s + n)) with hmax | hmax
        · exact ⟨s + (n + 1), Nat.le_add_right _ _, le_rfl, hmax.trans stretch_self.symm⟩
        · refine ⟨t, hst, hts.trans (Nat.le_succ _), hmax.trans ?_⟩
          rw [hend, stretch_succ hts, ht]
      · rintro v ⟨t, hst, hts, rfl⟩
        rcases hts.eq_or_lt with rfl | hlt
        · rw [stretch_self]
          exact le_max_left _ _
        · have hle : t ≤ s + n := Nat.lt_succ_iff.mp hlt
          rw [hend, stretch_succ hle]
          exact le_max_of_le_right (add_le_add_left (ih.2 ⟨t, hst, hle, rfl⟩) _)

/-- **The sum exceeds a bound exactly when some stretch does.** -/
theorem lt_cusum_iff (hh : 0 ≤ h) : h < cusum f s n ↔ ∃ t, s ≤ t ∧ t < s + n ∧ h < stretch f t (s + n) := by
  constructor
  · intro hlt
    obtain ⟨t, hst, hts, ht⟩ := (cusum_isGreatest (f := f) (s := s) (n := n)).1
    refine ⟨t, hst, ?_, ht ▸ hlt⟩
    -- the empty stretch does not exceed the bound
    refine lt_of_le_of_ne hts ?_
    rintro rfl
    rw [ht, stretch_self] at hlt
    exact absurd hlt (not_lt.mpr hh)
  · rintro ⟨t, hst, hts, hlt⟩
    exact hlt.trans_le (cusum_isGreatest.2 ⟨t, hst, hts.le, rfl⟩)

end Cusum

end Lib
