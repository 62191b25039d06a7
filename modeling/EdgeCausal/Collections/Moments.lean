import Mathlib

/-!
# `Collections.Moments` — averages, co-deviations and straight lines

The sum of the products of two lists' deviations from their averages is what a least-squares slope and a
correlation coefficient are made of. Here is what an affine map does to it (`coSum_affine`, `coSum_affine_self`),
so the slope fitted to a straight line is the line's own (`lineSlope_line`), and how a coefficient is compared
with a bound without its square root (`belowCorr_iff`).
-/

namespace Lib

section Moments
variable {K : Type*} [Field K]

/-- Arithmetic mean (0 of no number). -/
def avg (x : List K) : K := x.sum / x.length

/-- The products of the deviations, summed. -/
def coSum (x y : List K) : K := (List.zipWith (fun a b => (a - avg x) * (b - avg y)) x y).sum

/-- Least-squares slope of `y` over `x`. -/
def fitSlope (x y : List K) : K := coSum x y / coSum x x

/-- The list under an affine map. -/
def affine (p q : K) (x : List K) : List K := x.map fun a => q + p * a

@[simp] theorem length_affine (p q : K) (x : List K) : (affine p q x).length = x.length := List.length_map _

@[simp] theorem affine_one_zero (x : List K) : affine 1 0 x = x := by simp [affine]

/-- Two affine maps in a row are one. -/
theorem affine_affine (p q p' q' : K) (x : List K) :
    affine p' q' (affine p q x) = affine (p' * p) (q' + p' * q) x := by
  unfold affine
  rw [List.map_map]
  refine List.map_congr_left fun v _ => ?_
  simp only [Function.comp_apply]
  ring

/-- Affine images of a list and of one of its images are affinely related. -/
theorem affine_of_affine {p : K} (hp : p ≠ 0) (c d q p' q' : K) (x : List K) :
    affine p' q' (affine c d x) = affine (p' * c / p) (q' + p' * d - p' * c / p * q) (affine p q x) := by
  rw [affine_affine, affine_affine]
  congr 1
  · field_simp
  · ring

theorem take_affine (p q : K) (x : List K) (n : ℕ) : (affine p q x).take n = affine p q (x.take n) :=
  List.map_take.symm

theorem drop_affine (p q : K) (x : List K) (n : ℕ) : (affine p q x).drop n = affine p q (x.drop n) :=
  List.map_drop.symm

theorem coSum_self (x : List K) : coSum x x = (x.map fun a => (a - avg x) ^ 2).sum := by
  unfold coSum
  rw [List.zipWith_self]
  simp only [pow_two]

theorem sum_affine (p q : K) (x : List K) : (affine p q x).sum = x.length * q + p * x.sum := by
  unfold affine
  induction x with
  | nil => simp
  | cons a x ih =>
      rw [List.map_cons, List.sum_cons, ih, List.sum_cons, List.length_cons]
      push_cast
      ring

/-! ## Straight lines -/

/-- The abscissae `0, 1, …, n - 1`. -/
def steps (n : ℕ) : List K := (List.range n).map Nat.cast

@[simp] theorem length_steps (n : ℕ) : (steps n : List K).length = n := by simp [steps]

/-- `n` samples of a line. -/
def line (a s : K) (n : ℕ) : List K := affine s a (steps n)

@[simp] theorem length_line (a s : K) (n : ℕ) : (line a s n).length = n := by simp [line]

theorem getElem?_line (a s : K) {n i : ℕ} (hi : i < n) : (line a s n)[i]? = some (a + s * i) := by
  simp [line, affine, steps, hi]

/-- A line from some sample on is a line. -/
theorem drop_line (a s : K) (n k : ℕ) : (line a s n).drop k = line (a + s * k) s (n - k) := by
  apply List.ext_getElem?
  intro i
  rw [List.getElem?_drop]
  rcases lt_or_ge (k + i) n with hlt | hge
  · rw [getElem?_line a s hlt, getElem?_line _ s (by omega)]
    push_cast
    ring_nf
  · rw [List.getElem?_eq_none (by simpa using hge), List.getElem?_eq_none (by simp; omega)]

/-- The last sample of a line. -/
theorem getLast?_line (a s : K) {n : ℕ} (hn : 0 < n) : (line a s n).getLast? = some (a + s * (n - 1 : ℕ)) := by
  rw [List.getLast?_eq_getElem?, length_line, getElem?_line a s (by omega)]

/-! ## Under an affine map -/

variable [LinearOrder K] [IsStrictOrderedRing K]

theorem avg_affine {x : List K} (hx : x ≠ []) (p q : K) : avg (affine p q x) = q + p * avg x := by
  have hlen : (x.length : K) ≠ 0 := by simpa using hx
  unfold avg
  rw [sum_affine, length_affine]
  field_simp

/-- An affine map scales the deviations. -/
theorem coSum_affine (x : List K) (p q : K) : coSum x (affine p q x) = p * coSum x x := by
  rcases eq_or_ne x [] with rfl | hx
  · simp [coSum, affine]
  · rw [coSum_self, ← List.sum_map_mul_left]
    unfold coSum
    rw [avg_affine hx, affine, List.zipWith_map_right, List.zipWith_self]
    congr 1
    refine List.map_congr_left fun a _ => ?_
    ring

theorem coSum_affine_self (x : List K) (p q : K) : coSum (affine p q x) (affine p q x) = p ^ 2 * coSum x x := by
  rcases eq_or_ne x [] with rfl | hx
  · simp [coSum, affine]
  · rw [coSum_self, coSum_self, ← List.sum_map_mul_left, avg_affine hx]
    unfold affine
    rw [List.map_map]
    congr 1
    refine List.map_congr_left fun a _ => ?_
    simp only [Function.comp_apply]
    ring

theorem coSum_self_nonneg (x : List K) : 0 ≤ coSum x x := by
  rw [coSum_self]
  refine List.sum_nonneg ?_
  simp only [List.mem_map]
  rintro v ⟨a, -, rfl⟩
  positivity

/-- Numbers that are not all the same deviate. -/
theorem coSum_self_pos {x : List K} {a b : K} (ha : a ∈ x) (hb : b ∈ x) (hne : a ≠ b) : 0 < coSum x x := by
  refine lt_of_le_of_ne (coSum_self_nonneg x) fun hzero => hne ?_
  have hall : ∀ v ∈ x, v = avg x := by
    intro v hv
    have hle : (v - avg x) ^ 2 ≤ coSum x x := by
      rw [coSum_self]
      refine List.single_le_sum ?_ _ (List.mem_map_of_mem hv)
      simp only [List.mem_map]
      rintro w ⟨c, -, rfl⟩
      positivity
    have hsq : (v - avg x) ^ 2 = 0 := le_antisymm (hle.trans hzero.symm.le) (by positivity)
    exact sub_eq_zero.mp (pow_eq_zero_iff two_ne_zero |>.mp hsq)
  exact (hall a ha).trans (hall b hb).symm

/-- The slope over `x` of a line in `x` is the line's. -/
theorem fitSlope_affine {x : List K} (hx : 0 < coSum x x) (p q : K) : fitSlope x (affine p q x) = p := by
  unfold fitSlope
  rw [coSum_affine]
  exact mul_div_cancel_right₀ p hx.ne'

theorem coSum_steps_pos {n : ℕ} (hn : 2 ≤ n) : 0 < coSum (steps n : List K) (steps n) := by
  have hmem : ∀ i < n, (i : K) ∈ (steps n : List K) := by
    intro i hi
    exact List.mem_map.mpr ⟨i, List.mem_range.mpr hi, rfl⟩
  exact coSum_self_pos (hmem 0 (by omega)) (hmem 1 (by omega)) (by norm_num)

theorem fitSlope_line {n : ℕ} (hn : 2 ≤ n) (a s : K) : fitSlope (steps n) (line a s n) = s :=
  fitSlope_affine (coSum_steps_pos hn) s a

/-! ## Coefficients against a bound -/

/-- A coefficient `sxy / √(sxx * syy)` is below the positive bound `c`. -/
def belowCorr (c sxy sxx syy : K) : Prop := 0 < sxx * syy ∧ (sxy < 0 ∨ sxy ^ 2 < c ^ 2 * (sxx * syy))

instance (c sxy sxx syy : K) : Decidable (belowCorr c sxy sxx syy) := instDecidableAnd

end Moments

/-- **No square root is needed** to compare a coefficient with a positive bound. -/
theorem belowCorr_iff {c sxy sxx syy : ℚ} (hc : 0 < c) (hpos : 0 < sxx * syy) :
    belowCorr c sxy sxx syy ↔ (sxy : ℝ) / √((sxx : ℝ) * syy) < c := by
  have hpos' : (0 : ℝ) < (sxx : ℝ) * syy := by exact_mod_cast hpos
  have hc' : (0 : ℝ) < c := by exact_mod_cast hc
  have hroot := Real.sqrt_pos.mpr hpos'
  have hsq : (c * √((sxx : ℝ) * syy)) ^ 2 = c ^ 2 * ((sxx : ℝ) * syy) := by
    rw [mul_pow, Real.sq_sqrt hpos'.le]
  unfold belowCorr
  rw [and_iff_right hpos, div_lt_iff₀ hroot]
  rcases lt_or_ge sxy 0 with hneg | hnonneg
  · have hneg' : (sxy : ℝ) < 0 := by exact_mod_cast hneg
    exact iff_of_true (Or.inl hneg) (hneg'.trans (by positivity))
  · have hnonneg' : (0 : ℝ) ≤ sxy := by exact_mod_cast hnonneg
    rw [or_iff_right (not_lt.mpr hnonneg), ← sq_lt_sq₀ hnonneg' (by positivity), hsq]
    exact_mod_cast Iff.rfl

end Lib
