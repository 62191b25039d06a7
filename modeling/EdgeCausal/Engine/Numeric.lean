import EdgeCausal.Engine.LagCorr

/-!
# `Engine.Numeric` — the statistics, evaluated

A concrete `Estimators`, so that the model can be run: population standard deviation, skewness, Pearson's
coefficient and Spearman's (Pearson's of the average ranks). The square root is exact on squares of
rationals and truncated at twelve digits elsewhere; a coefficient of constant data is NaN.
-/

namespace EdgeCausal

open Lib

/-- Newton's iteration for the integer square root, from above. -/
def isqrtFrom (n : ℕ) : ℕ → ℕ → ℕ
  | 0, x => x
  | fuel + 1, x =>
      let y := (x + n / x) / 2
      if y < x then isqrtFrom n fuel y else x

def isqrt (n : ℕ) : ℕ := if n = 0 then 0 else isqrtFrom n (n.log2 + 2) (2 ^ (n.log2 / 2 + 1))

/-- A step of the iteration halves the distance to the root of a square, and does not pass it. -/
theorem isqrt_step {k x : ℕ} (hkx : k ≤ x) (hx : 0 < x) :
    k ≤ (x + k * k / x) / 2 ∧ (x + k * k / x) / 2 - k ≤ (x - k) / 2 := by
  have hlower : 2 * k - x ≤ k * k / x := by
    rw [Nat.le_div_iff_mul_le hx]
    rcases le_or_gt (2 * k) x with hbig | hsmall
    · rw [Nat.sub_eq_zero_of_le hbig]
      omega
    · -- `(2k - x) x ≤ k²`, the difference being a square
      obtain ⟨d, rfl⟩ := Nat.exists_eq_add_of_le hkx
      obtain ⟨e, rfl⟩ : ∃ e, k = d + e := ⟨k - d, by omega⟩
      rw [show 2 * (d + e) - (d + e + d) = e by omega]
      nlinarith
  have hupper : k * k / x ≤ k := Nat.div_le_of_le_mul (Nat.mul_le_mul_right k hkx)
  omega

/-- From above, with enough fuel, the iteration finds the root of a square. -/
theorem isqrtFrom_sq {k fuel x : ℕ} (hkx : k ≤ x) (hx : 0 < x) (hfuel : x - k < 2 ^ fuel) :
    isqrtFrom (k * k) fuel x = k := by
  induction fuel generalizing x with
  | zero =>
      simp only [pow_zero] at hfuel
      show x = k
      omega
  | succ fuel ih =>
      obtain ⟨hk, hhalf⟩ := isqrt_step hkx hx
      rw [pow_succ] at hfuel
      unfold isqrtFrom
      dsimp only
      split
      · rename_i hlt
        rcases Nat.eq_zero_or_pos ((x + k * k / x) / 2) with hzero | hpos
        · -- the iteration reached zero, so the root is zero
          obtain rfl : k = 0 := by omega
          rw [hzero]
          cases fuel with
          | zero => rfl
          | succ fuel => simp [isqrtFrom]
        · exact ih hk hpos (by omega)
      · omega

theorem isqrt_sq (k : ℕ) : isqrt (k * k) = k := by
  unfold isqrt
  split
  · rename_i hzero
    simp only [mul_self_eq_zero] at hzero
    exact hzero.symm
  · rename_i hne
    have hlog := Nat.lt_log2_self (n := k * k)
    have hroot : k < 2 ^ ((k * k).log2 / 2 + 1) := by
      rw [← Nat.mul_self_lt_mul_self_iff, ← pow_add]
      exact hlog.trans_le (Nat.pow_le_pow_right (by norm_num) (by omega))
    refine isqrtFrom_sq hroot.le (by positivity) ?_
    have hpow := Nat.pow_le_pow_right (n := 2) (by norm_num)
      (show (k * k).log2 / 2 + 1 ≤ (k * k).log2 + 2 by omega)
    have hpos : 0 < k := Nat.pos_of_ne_zero fun h => hne (by rw [h])
    omega

/-- Square root of a non-negative rational. -/
def sqrtQ (q : ℚ) : ℚ :=
  let n : ℕ := isqrt (q.num.toNat * q.den * 10 ^ 24)
  (n : ℚ) / ((q.den : ℚ) * 10 ^ 12)

/-- The root of a square is exact. -/
theorem sqrtQ_sq {v : ℚ} (hv : 0 ≤ v) : sqrtQ (v * v) = v := by
  have hnum : v.num = v.num.toNat := (Int.toNat_of_nonneg (Rat.num_nonneg.mpr hv)).symm
  have hden : (v.den : ℚ) ≠ 0 := by exact_mod_cast v.den_nz
  have hsquare : (v * v).num.toNat * (v * v).den * 10 ^ 24 =
      (v.num.toNat * v.den * 10 ^ 12) * (v.num.toNat * v.den * 10 ^ 12) := by
    rw [Rat.mul_self_num, Rat.mul_self_den, hnum, ← Nat.cast_mul, Int.toNat_natCast, Int.toNat_natCast]
    ring
  unfold sqrtQ
  dsimp only
  rw [hsquare, isqrt_sq, Rat.mul_self_den]
  conv_rhs => rw [← Rat.num_div_den v, hnum]
  push_cast
  field_simp
  norm_num

/-- Central product moment of two vectors. -/
def coMoment (x y : Series) : ℚ :=
  (List.zipWith (fun a b => (a - mean x) * (b - mean y)) x y).sum / x.length

def stdQ (x : Series) : ℚ := sqrtQ (coMoment x x)

def skewQ (x : Series) : ℚ :=
  let m2 := coMoment x x
  let cubes : Series := x.map fun a => (a - mean x) ^ 3
  let m3 := cubes.sum / x.length
  m3 / (m2 * sqrtQ m2)

def pearsonQ (x y : Series) : Option ℚ :=
  let v := coMoment x x * coMoment y y
  if v = 0 then none else some (coMoment x y / sqrtQ v)

/-- Average ranks, ties sharing the mean of theirs. -/
def averageRanks (x : Series) : Series :=
  x.map fun a => (x.countP (· < a) : ℚ) + ((x.countP (· = a) : ℚ) + 1) / 2

/-- The twelve-digit estimators. -/
def numericEstimators : Estimators where
  std := stdQ
  skew := skewQ
  pearsonr := pearsonQ
  spearmanr x y := pearsonQ (averageRanks x) (averageRanks y)

example : stdQ [0, 1, 2, 3, 4, 5, 6] = 2 := by decide +kernel
example : pearsonQ [0, 1, 2, 3] [5, 7, 9, 11] = some 1 := by decide +kernel

end EdgeCausal
