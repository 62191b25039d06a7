import Mathlib

/-!
# `Collections.OrderStat` — medians, interpolated percentiles and rounding

Order statistics of a list over a linearly ordered field, with the one fact every client needs: they
never leave an interval that contains all the samples (`median_mem`, `percentile_mem`). The same
holds of a convex combination (`mix_mem`), so an exponential average of medians stays inside too. A level
that few samples exceed bounds the percentile from above (`percentile_le`).

`roundHalfEven` is the banker's rounding of a number to an integer and `roundAt k` the same at the
`k`-th decimal place. Rounding is monotone and fixes every number that is already on the grid, which
is what carries a threshold (`c ≤ x`, `c` on the grid) across it: `le_roundAt`.
-/

namespace Lib

variable {K : Type*} [Field K] [LinearOrder K]

/-- Samples in ascending order. -/
def ascending (l : List K) : List K := l.insertionSort (· ≤ ·)

/-- The middle sample, or the mean of the two middle samples. -/
def median (l : List K) : K :=
  let s := ascending l
  if s.length % 2 = 1 then s.getD (s.length / 2) 0
  else (s.getD (s.length / 2 - 1) 0 + s.getD (s.length / 2) 0) / 2

/-- The `q`-th percentile, linearly interpolated between the two closest ranks. -/
def percentile [FloorSemiring K] (q : K) (l : List K) : K :=
  let s := ascending l
  let pos := q / 100 * ((s.length - 1 : ℕ) : K)
  let lo := ⌊pos⌋₊
  let below := s.getD lo 0
  let above := s.getD (min (lo + 1) (s.length - 1)) 0
  below + (pos - lo) * (above - below)

/-- Blend `a` parts of `y` into `x`. -/
def mix (a x y : K) : K := (1 - a) * x + a * y

omit [Field K] in
theorem length_ascending (l : List K) : (ascending l).length = l.length :=
  List.length_insertionSort _ l

section Bounds
variable {lo hi : K}

theorem ascending_getD_mem {l : List K} (h : ∀ x ∈ l, lo ≤ x ∧ x ≤ hi) {i : ℕ}
    (hi' : i < l.length) : lo ≤ (ascending l).getD i 0 ∧ (ascending l).getD i 0 ≤ hi := by
  have hlen : i < (ascending l).length := by rw [length_ascending]; exact hi'
  rw [List.getD_eq_getElem?_getD, List.getElem?_eq_getElem hlen, Option.getD_some]
  exact h _ ((List.mem_insertionSort _).mp (List.getElem_mem hlen))

variable [IsStrictOrderedRing K]

theorem median_mem {l : List K} (hne : l ≠ []) (h : ∀ x ∈ l, lo ≤ x ∧ x ≤ hi) :
    lo ≤ median l ∧ median l ≤ hi := by
  have hpos : 0 < l.length := List.length_pos_iff.mpr hne
  unfold median
  simp only [length_ascending]
  split
  · exact ascending_getD_mem h (by omega)
  · obtain ⟨ha, hb⟩ := ascending_getD_mem h (show l.length / 2 - 1 < l.length by omega)
    obtain ⟨hc, hd⟩ := ascending_getD_mem h (show l.length / 2 < l.length by omega)
    constructor <;> linarith

theorem mix_mem {a x y : K} (ha0 : 0 ≤ a) (ha1 : a ≤ 1)
    (hx : lo ≤ x ∧ x ≤ hi) (hy : lo ≤ y ∧ y ≤ hi) : lo ≤ mix a x y ∧ mix a x y ≤ hi := by
  unfold mix
  have hc : 0 ≤ 1 - a := by linarith
  have h1 := mul_le_mul_of_nonneg_left hx.1 hc
  have h2 := mul_le_mul_of_nonneg_left hy.1 ha0
  have h3 := mul_le_mul_of_nonneg_left hx.2 hc
  have h4 := mul_le_mul_of_nonneg_left hy.2 ha0
  constructor <;> linarith

theorem percentile_mem [FloorSemiring K] {q : K} (hq0 : 0 ≤ q) (hq1 : q ≤ 100) {l : List K}
    (hne : l ≠ []) (h : ∀ x ∈ l, lo ≤ x ∧ x ≤ hi) :
    lo ≤ percentile q l ∧ percentile q l ≤ hi := by
  have hpos : 0 < l.length := List.length_pos_iff.mpr hne
  unfold percentile
  simp only [length_ascending]
  set m : K := ((l.length - 1 : ℕ) : K)
  have hm : 0 ≤ m := Nat.cast_nonneg _
  have hq : 0 ≤ q / 100 := by positivity
  have hq' : q / 100 ≤ 1 := by linarith
  have hp0 : 0 ≤ q / 100 * m := mul_nonneg hq hm
  have hp1 : q / 100 * m ≤ m := by
    simpa using mul_le_mul_of_nonneg_right hq' hm
  set k := ⌊q / 100 * m⌋₊
  have hk : k ≤ l.length - 1 := (Nat.floor_mono hp1).trans (Nat.floor_natCast _).le
  have hfrac0 : 0 ≤ q / 100 * m - k := sub_nonneg.mpr (Nat.floor_le hp0)
  have hfrac1 : q / 100 * m - k ≤ 1 := by
    have := Nat.lt_floor_add_one (q / 100 * m)
    linarith
  have hb := ascending_getD_mem h (show k < l.length by omega)
  have ha := ascending_getD_mem h (show min (k + 1) (l.length - 1) < l.length by omega)
  -- the interpolant is a convex combination of the two neighbours
  have hmix := mix_mem hfrac0 hfrac1 hb ha
  have heq : ∀ a x y : K, mix a x y = x + a * (y - x) := by intro a x y; unfold mix; ring
  rw [heq] at hmix
  exact hmix

end Bounds

/-! ## Levels that few samples exceed -/

section Few

omit [Field K] in
theorem ascending_pairwise (l : List K) : (ascending l).Pairwise (· ≤ ·) :=
  List.pairwise_insertionSort (· ≤ ·) l

/-- A rank that leaves room above it for every sample over `t` holds a sample that is not over `t`. -/
theorem ascending_getD_le {l : List K} {t : K} {i : ℕ} (hi : i + l.countP (t < ·) < l.length) :
    (ascending l).getD i 0 ≤ t := by
  by_contra hgt
  rw [not_le] at hgt
  have hlen : i < (ascending l).length := by rw [length_ascending]; omega
  rw [List.getD_eq_getElem?_getD, List.getElem?_eq_getElem hlen, Option.getD_some] at hgt
  -- every sample from rank `i` on is over `t`
  have hall : ∀ x ∈ (ascending l).drop i, t < x := by
    intro x hx
    rw [List.drop_eq_getElem_cons hlen] at hx
    have hdrop := (ascending_pairwise l).drop (i := i)
    rw [List.drop_eq_getElem_cons hlen] at hdrop
    rcases List.mem_cons.mp hx with rfl | hx
    · exact hgt
    · exact hgt.trans_le (List.rel_of_pairwise_cons hdrop hx)
  have hcount : ((ascending l).drop i).countP (t < ·) = ((ascending l).drop i).length :=
    List.countP_eq_length.mpr (by simpa using hall)
  have hsub := (List.drop_sublist i (ascending l)).countP_le (p := fun x => decide (t < x))
  have hperm : (ascending l).countP (t < ·) = l.countP (t < ·) :=
    (List.perm_insertionSort (· ≤ ·) l).countP_eq _
  rw [hcount, List.length_drop, length_ascending, hperm] at hsub
  omega

variable [IsStrictOrderedRing K]

/-- A level that few enough samples exceed is not below the percentile. -/
theorem percentile_le [FloorSemiring K] {q t : K} (hq : 0 ≤ q) {l : List K} (hne : l ≠ [])
    (hfew : q / 100 * ((l.length - 1 : ℕ) : K) + (l.countP (t < ·) : ℕ) ≤ ((l.length - 1 : ℕ) : K)) :
    percentile q l ≤ t := by
  have hpos : 0 < l.length := List.length_pos_iff.mpr hne
  unfold percentile
  simp only [length_ascending]
  set m := l.length - 1 with hm
  set c := l.countP (t < ·)
  set pos : K := q / 100 * (m : K)
  have hpos0 : 0 ≤ pos := by positivity
  have hfloor := Nat.floor_le hpos0
  set k := ⌊pos⌋₊
  have hk : k + c ≤ m := by
    have : ((k + c : ℕ) : K) ≤ (m : ℕ) := by push_cast; linarith
    exact_mod_cast this
  have hbelow : (ascending l).getD k 0 ≤ t := ascending_getD_le (by omega)
  rcases hfloor.eq_or_lt with heq | hlt
  · rw [heq, sub_self, zero_mul, add_zero]
    exact hbelow
  · -- strictly between two ranks: the upper one still leaves room for what exceeds `t`
    have hk' : k + c < m := by
      have : ((k + c : ℕ) : K) < (m : ℕ) := by push_cast; linarith
      exact_mod_cast this
    have habove : (ascending l).getD (min (k + 1) m) 0 ≤ t := by
      apply ascending_getD_le
      rw [min_eq_left (by omega)]
      omega
    have hfrac : pos - k ≤ 1 := by
      have := Nat.lt_floor_add_one pos
      linarith
    have h0 : 0 ≤ pos - k := by linarith
    nlinarith [mul_le_mul_of_nonneg_left habove h0, mul_le_mul_of_nonneg_left hbelow (sub_nonneg.mpr hfrac)]

end Few

/-! ## Rounding -/

section Rounding
variable [FloorRing K]

/-- The nearest integer; a tie goes to the even neighbour. -/
def roundHalfEven (x : K) : ℤ :=
  let f := ⌊x⌋
  let d := x - f
  if d < 1 / 2 then f
  else if 1 / 2 < d then f + 1
  else if f % 2 = 0 then f else f + 1

/-- Round at the `k`-th decimal place. -/
def roundAt (k : ℕ) (x : K) : K := (roundHalfEven (x * 10 ^ k) : K) / 10 ^ k

theorem roundHalfEven_floor_le (x : K) :
    ⌊x⌋ ≤ roundHalfEven x ∧ roundHalfEven x ≤ ⌊x⌋ + 1 := by
  unfold roundHalfEven
  dsimp only
  split_ifs <;> omega

theorem roundHalfEven_mono [IsStrictOrderedRing K] {x y : K} (h : x ≤ y) :
    roundHalfEven x ≤ roundHalfEven y := by
  rcases (Int.floor_mono h).lt_or_eq with hlt | heq
  · have hx := (roundHalfEven_floor_le x).2
    have hy := (roundHalfEven_floor_le y).1
    omega
  · -- same integer part: compare the fractional parts
    have hd : x - ⌊x⌋ ≤ y - ⌊y⌋ := by rw [heq]; exact sub_le_sub_right h _
    unfold roundHalfEven
    rw [heq] at hd ⊢
    dsimp only
    split_ifs <;> first | omega | (exfalso; linarith)

theorem roundHalfEven_intCast [IsStrictOrderedRing K] (n : ℤ) : roundHalfEven (n : K) = n := by
  unfold roundHalfEven
  simp

/-- Rounding moves a number by half at most. -/
theorem roundHalfEven_near [IsStrictOrderedRing K] (x : K) :
    x - 1 / 2 ≤ roundHalfEven x ∧ (roundHalfEven x : K) ≤ x + 1 / 2 := by
  have hfloor := Int.floor_le x
  have hlt := Int.lt_floor_add_one x
  unfold roundHalfEven
  dsimp only
  split_ifs <;> push_cast <;> constructor <;> linarith

theorem roundAt_mono [IsStrictOrderedRing K] (k : ℕ) {x y : K} (h : x ≤ y) :
    roundAt k x ≤ roundAt k y := by
  have hk : (0 : K) < 10 ^ k := by positivity
  unfold roundAt
  refine div_le_div_of_nonneg_right ?_ hk.le
  exact_mod_cast roundHalfEven_mono (mul_le_mul_of_nonneg_right h hk.le)

/-- A number on the grid is its own rounding. -/
theorem roundAt_of_grid [IsStrictOrderedRing K] (k : ℕ) (n : ℤ) :
    roundAt k ((n : K) / 10 ^ k) = n / 10 ^ k := by
  have hk : (10 : K) ^ k ≠ 0 := by positivity
  unfold roundAt
  rw [div_mul_cancel₀ _ hk, roundHalfEven_intCast]

/-- **A grid threshold survives rounding.** -/
theorem le_roundAt [IsStrictOrderedRing K] {k : ℕ} {n : ℤ} {x : K} (h : (n : K) / 10 ^ k ≤ x) :
    (n : K) / 10 ^ k ≤ roundAt k x := by
  rw [← roundAt_of_grid k n]
  exact roundAt_mono k h

@[simp] theorem roundAt_zero [IsStrictOrderedRing K] (k : ℕ) : roundAt k (0 : K) = 0 := by
  simpa using roundAt_of_grid (K := K) k 0

end Rounding

end Lib
