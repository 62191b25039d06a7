import Mathlib

/-!
# `Collections.Inequality` — absolute differences and ranks

How far apart the members of a list are, taken over all ordered pairs (`spread`), and the sum of an ascending list
weighted by rank (`rankSum`), which determine each other (`spread_eq`). For non-negative lists the spread is at
most `2 (n - 1)` times the sum, and that only when at most one member is not zero (`spread_le_top`).
-/

namespace Lib

section Inequality
variable {K : Type*} [Field K]

/-- The members weighted by their ranks `1, 2, …`, summed. -/
def rankSum (l : List K) : K := ((l.zipIdx 1).map fun vi => (vi.2 : K) * vi.1).sum

/-- Starting the ranks one later adds the sum. -/
theorem rankSum_offset (l : List K) (k : ℕ) : ((l.zipIdx (k + 1)).map fun vi => (vi.2 : K) * vi.1).sum =
    ((l.zipIdx k).map fun vi => (vi.2 : K) * vi.1).sum + l.sum := by
  induction l generalizing k with
  | nil => simp
  | cons a l ih =>
      rw [List.zipIdx_cons, List.map_cons, List.sum_cons, ih, List.zipIdx_cons, List.map_cons, List.sum_cons,
        List.sum_cons]
      push_cast
      ring

@[simp] theorem rankSum_nil : rankSum ([] : List K) = 0 := by simp [rankSum]

theorem rankSum_cons (a : K) (l : List K) : rankSum (a :: l) = a + rankSum l + l.sum := by
  unfold rankSum
  rw [List.zipIdx_cons, List.map_cons, List.sum_cons, rankSum_offset l 1]
  push_cast
  ring

/-- What the ranks fall short of the last one, weighted: `n` times the sum less the rank sum. -/
def rankGap (l : List K) : K := l.length * l.sum - rankSum l

theorem rankGap_cons (a : K) (l : List K) : rankGap (a :: l) = l.length * a + rankGap l := by
  unfold rankGap
  rw [rankSum_cons, List.sum_cons, List.length_cons]
  push_cast
  ring

variable [LinearOrder K] {l l' : List K} {a : K}

/-- The absolute differences of all ordered pairs, summed. -/
def spread (l : List K) : K := (l.map fun x => (l.map fun y => |x - y|).sum).sum

theorem spread_perm (h : l.Perm l') : spread l = spread l' := by
  unfold spread
  refine (h.map _).sum_eq.trans (congrArg List.sum (List.map_congr_left fun x _ => ?_))
  exact (h.map _).sum_eq

variable [IsStrictOrderedRing K]

theorem spread_nonneg (l : List K) : 0 ≤ spread l := by
  unfold spread
  refine List.sum_nonneg ?_
  simp only [List.mem_map]
  rintro _ ⟨x, -, rfl⟩
  refine List.sum_nonneg ?_
  simp only [List.mem_map]
  rintro _ ⟨y, -, rfl⟩
  exact abs_nonneg _

/-- Nothing is apart exactly when all members are the same. -/
theorem spread_eq_zero_iff : spread l = 0 ↔ ∀ x ∈ l, ∀ y ∈ l, x = y := by
  constructor
  · intro h x hx y hy
    have hrow : (l.map fun y => |x - y|).sum ≤ spread l := by
      refine List.single_le_sum ?_ _ (List.mem_map_of_mem (f := fun x => (l.map fun y => |x - y|).sum) hx)
      simp only [List.mem_map]
      rintro _ ⟨z, -, rfl⟩
      exact List.sum_nonneg (by simp only [List.mem_map]; rintro _ ⟨w, -, rfl⟩; exact abs_nonneg _)
    have hcell : |x - y| ≤ (l.map fun y => |x - y|).sum := by
      refine List.single_le_sum ?_ _ (List.mem_map_of_mem (f := fun y => |x - y|) hy)
      simp only [List.mem_map]
      rintro _ ⟨z, -, rfl⟩
      exact abs_nonneg _
    have hzero : |x - y| = 0 := le_antisymm (by linarith) (abs_nonneg _)
    exact sub_eq_zero.mp (abs_eq_zero.mp hzero)
  · intro h
    unfold spread
    refine List.sum_eq_zero ?_
    simp only [List.mem_map]
    rintro _ ⟨x, hx, rfl⟩
    refine List.sum_eq_zero ?_
    simp only [List.mem_map]
    rintro _ ⟨y, hy, rfl⟩
    rw [h x hx y hy, sub_self, abs_zero]

theorem spread_cons (a : K) (l : List K) : spread (a :: l) = spread l + 2 * (l.map fun y => |a - y|).sum := by
  unfold spread
  have hrow : (l.map fun x => ((a :: l).map fun y => |x - y|).sum) =
      l.map fun x => |a - x| + (l.map fun y => |x - y|).sum := by
    refine List.map_congr_left fun x _ => ?_
    rw [List.map_cons, List.sum_cons, abs_sub_comm]
  rw [List.map_cons, List.sum_cons, hrow, List.sum_map_add, List.map_cons, List.sum_cons, sub_self, abs_zero]
  ring

/-- The distances from a lower bound. -/
theorem sum_abs_sub (h : ∀ y ∈ l, a ≤ y) : (l.map fun y => |a - y|).sum = l.sum - l.length * a := by
  induction l with
  | nil => simp
  | cons y l ih =>
      have hy : |a - y| = y - a := by
        rw [abs_sub_comm, abs_of_nonneg]
        linarith [h y List.mem_cons_self]
      rw [List.map_cons, List.sum_cons, hy, ih fun z hz => h z (List.mem_cons_of_mem y hz), List.sum_cons,
        List.length_cons]
      push_cast
      ring

/-- **The spread of an ascending list** is its rank-weighted sum against its plain one. -/
theorem spread_eq (h : l.Pairwise (· ≤ ·)) : spread l = 2 * (2 * rankSum l - (l.length + 1) * l.sum) := by
  induction l with
  | nil => simp [spread]
  | cons a l ih =>
      obtain ⟨hmin, hrest⟩ := List.pairwise_cons.mp h
      rw [spread_cons, ih hrest, sum_abs_sub hmin, rankSum_cons, List.sum_cons, List.length_cons]
      push_cast
      ring

/-! ## The top -/

theorem rankGap_nonneg (h : ∀ x ∈ l, 0 ≤ x) : 0 ≤ rankGap l := by
  induction l with
  | nil => simp [rankGap]
  | cons a l ih =>
      have ha := h a List.mem_cons_self
      have hl := ih fun x hx => h x (List.mem_cons_of_mem a hx)
      rw [rankGap_cons]
      positivity

/-- In an ascending list of non-negative numbers no rank is missed exactly when only the last can be positive. -/
theorem rankGap_eq_zero_iff (hsorted : l.Pairwise (· ≤ ·)) (h : ∀ x ∈ l, 0 ≤ x) :
    rankGap l = 0 ↔ l.countP (· ≠ 0) ≤ 1 := by
  induction l with
  | nil => simp [rankGap]
  | cons a l ih =>
      obtain ⟨hmin, hrest⟩ := List.pairwise_cons.mp hsorted
      have ha := h a List.mem_cons_self
      have hl : ∀ x ∈ l, 0 ≤ x := fun x hx => h x (List.mem_cons_of_mem a hx)
      have hgap := rankGap_nonneg hl
      rw [rankGap_cons, List.countP_cons]
      rcases ha.eq_or_lt with rfl | hpos
      · rw [mul_zero, zero_add, ih hrest hl]
        simp
      · -- a positive least member makes every member positive
        have hall : l.countP (· ≠ 0) = l.length := by
          rw [List.countP_eq_length]
          intro x hx
          simpa using (hpos.trans_le (hmin x hx)).ne'
        rw [hall]
        cases l with
        | nil =>
            refine iff_of_true (by simp [rankGap]) ?_
            split <;> simp
        | cons b l =>
            refine iff_of_false (ne_of_gt ?_) ?_
            · have hlen : (0 : K) < (b :: l).length := by exact_mod_cast Nat.succ_pos _
              positivity
            · simp [hpos.ne']

/-- **The spread of a non-negative list is at most `2 (n - 1)` times its sum**, and that much exactly when at most
    one member is not zero. -/
theorem spread_le_top (h : ∀ x ∈ l, 0 ≤ x) : spread l ≤ 2 * (l.length - 1) * l.sum ∧
    (spread l = 2 * (l.length - 1) * l.sum ↔ l.countP (· ≠ 0) ≤ 1) := by
  -- neither side depends on the order
  have hperm := List.perm_insertionSort (· ≤ ·) l
  have hsorted := List.pairwise_insertionSort (· ≤ ·) l
  have hnonneg : ∀ x ∈ l.insertionSort (· ≤ ·), 0 ≤ x := fun x hx => h x (hperm.mem_iff.mp hx)
  rw [← spread_perm hperm, ← hperm.sum_eq, ← hperm.length_eq, ← hperm.countP_eq,
    ← rankGap_eq_zero_iff hsorted hnonneg]
  have hgap := rankGap_nonneg hnonneg
  have hspread := spread_eq hsorted
  have htop : spread (l.insertionSort (· ≤ ·)) = 2 * ((l.insertionSort (· ≤ ·)).length - 1) *
      (l.insertionSort (· ≤ ·)).sum - 4 * rankGap (l.insertionSort (· ≤ ·)) := by
    rw [hspread]
    unfold rankGap
    ring
  rw [htop]
  refine ⟨by linarith, ?_⟩
  constructor
  · intro heq
    linarith
  · intro hzero
    rw [hzero]
    ring

end Inequality

end Lib
