import Mathlib.Tactic

/-!
# `Collections.Runs` — the run of positions that ends before a position

`runStart P i` walks back from `i` as long as the positions it leaves behind satisfy `P`. It is the least start
of such a run (`runStart_le_iff`), so later positions never start an earlier run (`runStart_mono`).
-/

namespace Lib

section Runs
variable (P : ℕ → Prop) [DecidablePred P] {a i j : ℕ}

/-- Where the positions that satisfy `P` and end just before the given one begin. -/
def runStart : ℕ → ℕ
  | 0 => 0
  | i + 1 => if P i then runStart i else i + 1

variable {P}

theorem runStart_le (i : ℕ) : runStart P i ≤ i := by
  induction i with
  | zero => exact le_rfl
  | succ i ih =>
      unfold runStart
      split
      · exact ih.trans i.le_succ
      · exact le_rfl

theorem runStart_holds (hj : runStart P i ≤ j) (hi : j < i) : P j := by
  induction i with
  | zero => exact absurd hi (Nat.not_lt_zero j)
  | succ i ih =>
      unfold runStart at hj
      split at hj
      · rename_i hP
        rcases Nat.lt_succ_iff_lt_or_eq.mp hi with hlt | rfl
        · exact ih hj hlt
        · exact hP
      · omega

/-- **The least start.** The run reaches back to `a` exactly when every position from `a` on satisfies `P`. -/
theorem runStart_le_iff (ha : a ≤ i) : runStart P i ≤ a ↔ ∀ j, a ≤ j → j < i → P j := by
  constructor
  · exact fun h j haj hji => runStart_holds (h.trans haj) hji
  · intro h
    induction i with
    | zero => exact Nat.zero_le a
    | succ i ih =>
        unfold runStart
        rcases Nat.le_succ_iff.mp ha with hle | rfl
        · rw [if_pos (h i hle i.lt_succ_self)]
          exact ih hle fun j haj hji => h j haj (hji.trans i.lt_succ_self)
        · exact runStart_le (P := P) (i + 1)

/-- Later positions start no earlier. -/
theorem runStart_mono (h : i ≤ j) : runStart P i ≤ runStart P j := by
  rcases le_total i (runStart P j) with hle | hle
  · exact (runStart_le i).trans hle
  · rw [runStart_le_iff hle]
    exact fun t ht hti => runStart_holds ht (hti.trans_le h)

/-- Runs of exclusive predicates: the later one starts no earlier, unless the earlier one is empty. -/
theorem runStart_le_of_exclusive {Q : ℕ → Prop} [DecidablePred Q] (hPQ : ∀ t, P t → ¬ Q t) (hij : i < j)
    (hi : ¬ Q i) : runStart P i ≤ runStart Q j := by
  by_contra hlt
  rw [not_le] at hlt
  have hstart := runStart_le (P := P) i
  -- where the earlier run starts, both predicates hold, or the later one at `i` itself
  have hQ : Q (runStart P i) := runStart_holds hlt.le (by omega)
  rcases hstart.lt_or_eq with hne | heq
  · exact hPQ _ (runStart_holds le_rfl hne) hQ
  · exact hi (heq ▸ hQ)

end Runs

end Lib
