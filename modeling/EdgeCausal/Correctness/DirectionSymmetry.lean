import EdgeCausal.Correctness.Admission
import EdgeCausal.Engine.Numeric

/-!
# `Correctness.DirectionSymmetry` — when the direction of a pair does not depend on its order

`bestDirected` scans the lags in both directions and takes the reverse one only when it is stronger by a
margin, so a pair whose two directions tie is settled in favour of the argument that comes first. The
direction of a pair is independent of the order it is presented in exactly when one of its directions
*outweighs* the other (`Outweighs`); two directions that both peak at lag 0 never do, since at lag 0 they
are the same correlation.
-/

namespace EdgeCausal

open Lib

variable {est : Estimators}

/-! ## Outweighing -/

/-- What a direction must gain on the other one to be preferred whatever the order. -/
def directionMargin : ℚ := 1 / 1000000000

/-- Some lag of `p` is stronger, by more than the margin, than every lag of `q` (and than nothing, where `q`
    has no lag). -/
def Outweighs (p q : Dict ℕ ℚ) : Prop :=
  ∃ lag r, p.get? lag = some r ∧ directionMargin < |r| ∧
    ∀ lag' r', q.get? lag' = some r' → |r'| + directionMargin < |r|

/-- No entry of a profile is stronger than its peak. -/
theorem le_profilePeak {p : Dict ℕ ℚ} {lag : ℕ} {r : ℚ} (h : p.get? lag = some r) :
    |r| ≤ |(profilePeak p).2| := by
  have hmem := Dict.get?_eq_some_iff.mp h
  unfold profilePeak
  cases hmax : firstMax (fun kv : ℕ × ℚ => |kv.2|) p.entries with
  | none => simp [firstMax_eq_none_iff.mp hmax] at hmem
  | some kv => simpa using le_firstMax hmax (lag, r) hmem

/-- Outweighing is a matter of the two peaks. -/
theorem outweighs_iff_peak {p q : Dict ℕ ℚ} :
    Outweighs p q ↔ |(profilePeak q).2| + directionMargin < |(profilePeak p).2| := by
  have hmargin : 0 < directionMargin := by norm_num [directionMargin]
  constructor
  · rintro ⟨lag, r, hr, hpos, hall⟩
    have hpeak : |(profilePeak q).2| + directionMargin < |r| := by
      rcases profilePeak_spec q with hq | hq
      · exact hall _ _ hq
      · simpa [hq] using hpos
    exact hpeak.trans_le (le_profilePeak hr)
  · intro h
    have hnonneg := abs_nonneg (profilePeak q).2
    -- a peak above the margin is an entry of its profile
    rcases profilePeak_spec p with hp | hp
    · refine ⟨_, _, hp, by linarith, ?_⟩
      intro lag' r' hr'
      have := le_profilePeak hr'
      linarith
    · rw [hp, abs_zero] at h
      linarith

theorem Outweighs.asymm {p q : Dict ℕ ℚ} (h : Outweighs p q) : ¬ Outweighs q p := by
  have hmargin : 0 < directionMargin := by norm_num [directionMargin]
  rw [outweighs_iff_peak] at h ⊢
  linarith

/-! ## Swapping the arguments -/

/-- The direction is the opposite one and everything reported about it the same. -/
structure Reversed (d d' : Directed) : Prop where
  forward : d'.forward = !d.forward
  r : d'.r = d.r
  lagS : d'.lagS = d.lagS
  profile : d'.profile = d.profile

/-- The direction of two series is settled by their correlations alone. -/
def Decided (est : Estimators) (a b : Series) : Prop :=
  Outweighs (directedProfile est a b) (directedProfile est b a) ∨
    Outweighs (directedProfile est b a) (directedProfile est a b)

/-- What a profile reports when its direction is chosen. -/
def Directed.ofProfile (forward : Bool) (p : Dict ℕ ℚ) : Directed :=
  ⟨forward, (profilePeak p).2, (profilePeak p).1, p⟩

/-- The reverse direction is chosen exactly when it outweighs the first one. -/
theorem bestDirected_of_outweighs {a b : Series}
    (h : Outweighs (directedProfile est b a) (directedProfile est a b)) :
    bestDirected est a b = .ofProfile false (directedProfile est b a) := by
  rw [outweighs_iff_peak] at h
  unfold directedProfile directionMargin at *
  rw [min_comm b.length a.length] at *
  exact if_pos h

theorem bestDirected_of_not_outweighs {a b : Series}
    (h : ¬ Outweighs (directedProfile est b a) (directedProfile est a b)) :
    bestDirected est a b = .ofProfile true (directedProfile est a b) := by
  rw [outweighs_iff_peak] at h
  unfold directedProfile directionMargin at *
  rw [min_comm b.length a.length] at *
  exact if_neg h

/-- **Swapping the arguments reverses the direction exactly when it is decided.** -/
theorem reversed_iff_decided (a b : Series) :
    Reversed (bestDirected est a b) (bestDirected est b a) ↔ Decided est a b := by
  constructor
  · intro h
    by_contra hnot
    obtain ⟨hab, hba⟩ := not_or.mp hnot
    have hforward := h.forward
    rw [bestDirected_of_not_outweighs hba, bestDirected_of_not_outweighs hab] at hforward
    exact absurd hforward (by simp [Directed.ofProfile])
  · rintro (h | h)
    · rw [bestDirected_of_not_outweighs h.asymm, bestDirected_of_outweighs h]
      exact ⟨rfl, rfl, rfl, rfl⟩
    · rw [bestDirected_of_outweighs h, bestDirected_of_not_outweighs h.asymm]
      exact ⟨rfl, rfl, rfl, rfl⟩

/-! ## The accepted edge -/

/-- The series of a pod in the analysed slice. -/
def seriesOf (cvec : Dict Pod Series) (p : Pod) : Series := (cvec.get? p).getD []

/-- An accepted edge runs the way `bestDirected` says. -/
theorem psiEdge_ends {w : Witness} {active : List Pod} {onsetS : Dict Pod ℚ} {cvec : Dict Pod Series}
    {p q : Pod} {e : Edge} (h : psiEdge est w active onsetS cvec (p, q) = some e) :
    e.src = if (bestDirected est (seriesOf cvec p) (seriesOf cvec q)).forward then p else q := by
  unfold psiEdge at h
  dsimp only at h
  split at h
  · exact absurd h (by simp)
  · split at h
    · exact absurd h (by simp)
    · obtain ⟨-, -, -, -, rfl⟩ := acceptEdge_spec h
      rfl

/-- A pair whose direction is reversed with its arguments gives the same edge in both orders. -/
theorem psiEdge_swap {w : Witness} {active : List Pod} {onsetS : Dict Pod ℚ} {cvec : Dict Pod Series}
    {p q : Pod}
    (h : Reversed (bestDirected est (seriesOf cvec p) (seriesOf cvec q))
      (bestDirected est (seriesOf cvec q) (seriesOf cvec p))) :
    psiEdge est w active onsetS cvec (q, p) = psiEdge est w active onsetS cvec (p, q) := by
  unfold seriesOf at h
  have hactive : (q ∉ active ∧ p ∉ active ∧ ¬ active ≠ []) ↔ (p ∉ active ∧ q ∉ active ∧ ¬ active ≠ []) :=
    and_left_comm
  unfold psiEdge
  dsimp only
  rw [w.couples_comm q p, h.forward, h.r, h.lagS, h.profile]
  simp only [hactive]
  cases (bestDirected est ((cvec.get? p).getD []) ((cvec.get? q).getD [])).forward <;> rfl

/-- An accepted edge is accepted in the other order exactly when the direction of its pair is decided. -/
theorem psiEdge_swap_iff {w : Witness} {active : List Pod} {onsetS : Dict Pod ℚ} {cvec : Dict Pod Series}
    {p q : Pod} {e : Edge} (hpq : p ≠ q) (h : psiEdge est w active onsetS cvec (p, q) = some e) :
    psiEdge est w active onsetS cvec (q, p) = some e ↔
      Decided est (seriesOf cvec p) (seriesOf cvec q) := by
  rw [← reversed_iff_decided]
  constructor
  · intro hswap
    have hsrc := psiEdge_ends h
    rw [psiEdge_ends hswap] at hsrc
    by_contra hnot
    rw [reversed_iff_decided] at hnot
    obtain ⟨hab, hba⟩ := not_or.mp hnot
    -- undecided, either order puts its first pod at the source
    rw [bestDirected_of_not_outweighs hba, bestDirected_of_not_outweighs hab] at hsrc
    exact hpq hsrc.symm
  · intro hrev
    rw [psiEdge_swap hrev, h]

/-! ## Ties at lag 0 -/

/-- The correlations of the statistics package do not depend on the order of their arguments. -/
structure SymmetricCorrelation (est : Estimators) : Prop where
  pearsonr : ∀ a b, est.pearsonr a b = est.pearsonr b a
  spearmanr : ∀ a b, est.spearmanr a b = est.spearmanr b a

/-- At lag 0 both directions are one correlation. -/
theorem corrAtLag_zero_comm (hsymm : SymmetricCorrelation est) {a b : Series}
    (hlen : a.length = b.length) : corrAtLag est a b 0 = corrAtLag est b a 0 := by
  have hflat : (b.length < 12 ∨ est.std a < 1 / 1000000000 ∨ est.std b < 1 / 1000000000) ↔
      (b.length < 12 ∨ est.std b < 1 / 1000000000 ∨ est.std a < 1 / 1000000000) :=
    or_congr_right or_comm
  have hheavy : (|est.skew a| > 2 ∨ |est.skew b| > 2) ↔ (|est.skew b| > 2 ∨ |est.skew a| > 2) := or_comm
  unfold corrAtLag
  simp only [Nat.lt_irrefl, ↓reduceIte, hlen, hflat, hheavy, hsymm.pearsonr a b, hsymm.spearmanr a b]

/-- The loop over the lags writes every one that leaves enough overlap. -/
theorem get?_foldl_lags (src dst : Series) (lags : List ℕ) (d : Dict ℕ ℚ) (lag : ℕ) :
    (lags.foldl (fun out lagS =>
      let ls := lagSamples lagS
      if src.length ≤ ls + 12 then out
      else out.set lagS (corrAtLag est (znorm est src) (znorm est dst) ls)) d).get? lag =
      if lag ∈ lags ∧ lagSamples lag + 12 < src.length then
        some (corrAtLag est (znorm est src) (znorm est dst) (lagSamples lag))
      else d.get? lag := by
  induction lags generalizing d with
  | nil => simp
  | cons l lags ih =>
      rw [List.foldl_cons, ih]
      by_cases hlong : lagSamples lag + 12 < src.length
      · by_cases hl : l = lag
        · subst hl
          simp [hlong, Nat.not_le.mpr hlong, Dict.get?_set]
        · by_cases hlong' : src.length ≤ lagSamples l + 12
          · simp [hlong, hlong', Ne.symm hl]
          · simp [hlong, hlong', Ne.symm hl, Dict.get?_set]
      · by_cases hl : l = lag
        · subst hl
          simp [hlong, Nat.not_lt.mp hlong]
        · by_cases hlong' : src.length ≤ lagSamples l + 12
          · simp [hlong, hlong']
          · simp [hlong, hlong', Ne.symm hl, Dict.get?_set]

/-- **What a profile says of a lag.** -/
theorem get?_lagProfile (est : Estimators) (src dst : Series) (lag : ℕ) : (lagProfile est src dst).get? lag =
    if lag ∈ lagsS ∧ lagSamples lag + 12 < src.length then
      some (corrAtLag est (znorm est src) (znorm est dst) (lagSamples lag))
    else none := get?_foldl_lags src dst lagsS ∅ lag

theorem lagSamples_zero : lagSamples 0 = 0 := by simp [lagSamples, roundHalfEven]

/-- What a profile says of lag 0. -/
theorem lagProfile_zero (est : Estimators) (src dst : Series) :
    (lagProfile est src dst).get? 0 =
      if src.length ≤ 12 then none else some (corrAtLag est (znorm est src) (znorm est dst) 0) := by
  rw [get?_lagProfile, lagSamples_zero]
  by_cases hlen : src.length ≤ 12
  · rw [if_pos hlen, if_neg fun h => by omega]
  · rw [if_neg hlen, if_pos ⟨by decide, by omega⟩]

theorem directedProfile_eq {a b : Series} (hlen : a.length = b.length) :
    directedProfile est a b = lagProfile est a b := by
  unfold directedProfile alignTail lastN
  rw [← hlen, min_self]
  simp [hlen]

theorem directedProfile_zero_comm (hsymm : SymmetricCorrelation est) {a b : Series}
    (hlen : a.length = b.length) : (directedProfile est a b).get? 0 = (directedProfile est b a).get? 0 := by
  have hzlen : (znorm est a).length = (znorm est b).length := by simp [znorm, hlen]
  rw [directedProfile_eq hlen, directedProfile_eq hlen.symm, lagProfile_zero, lagProfile_zero, hlen,
    corrAtLag_zero_comm hsymm hzlen]

/-- The height of a peak at lag 0 is the profile's value there. -/
theorem abs_peak_of_zero {p : Dict ℕ ℚ} (h : (profilePeak p).1 = 0) :
    |(profilePeak p).2| = |(p.get? 0).getD 0| := by
  rcases profilePeak_spec p with hp | hp
  · rw [h] at hp
    simp [hp]
  · cases hzero : p.get? 0 with
    | none => simp [hp]
    | some c =>
        have hle := le_profilePeak hzero
        rw [hp] at hle ⊢
        exact le_antisymm (by simp) hle

/-- Two directions that peak at lag 0 tie, so nothing decides between them. -/
theorem not_decided_of_zeroLag (hsymm : SymmetricCorrelation est) {a b : Series}
    (hlen : a.length = b.length) (hab : (profilePeak (directedProfile est a b)).1 = 0)
    (hba : (profilePeak (directedProfile est b a)).1 = 0) : ¬ Decided est a b := by
  have hmargin : 0 < directionMargin := by norm_num [directionMargin]
  unfold Decided
  rw [outweighs_iff_peak, outweighs_iff_peak, abs_peak_of_zero hab, abs_peak_of_zero hba,
    directedProfile_zero_comm hsymm hlen]
  simp [hmargin.le]

/-! ## The result -/

/-- **The direction of a pair does not depend on its order exactly when it is decided**: for the outcome of
    `bestDirected` and for an edge accepted on the pair. Two directions that peak at lag 0 are never decided. -/
theorem direction_symmetric_iff (est : Estimators) (a b : Series) :
    (Reversed (bestDirected est a b) (bestDirected est b a) ↔ Decided est a b) ∧
    (∀ w active onsetS cvec p q e, p ≠ q → seriesOf cvec p = a → seriesOf cvec q = b →
      psiEdge est w active onsetS cvec (p, q) = some e →
      (psiEdge est w active onsetS cvec (q, p) = some e ↔ Decided est a b)) ∧
    (SymmetricCorrelation est → a.length = b.length → (profilePeak (directedProfile est a b)).1 = 0 →
      (profilePeak (directedProfile est b a)).1 = 0 → ¬ Decided est a b) := by
  refine ⟨reversed_iff_decided a b, ?_, ?_⟩
  · rintro w active onsetS cvec p q e hpq rfl rfl h
    exact psiEdge_swap_iff hpq h
  · intro hsymm hlen
    exact not_decided_of_zeroLag hsymm hlen

/-- A quiet stretch, then a storm of the given level. -/
def quietThenStorm (quiet : ℕ) (level : ℚ) : Series :=
  List.replicate quiet 0 ++ List.replicate (20 - quiet) level

/-- A storm that follows another one by three samples is led by it in either order. -/
theorem direction_symmetric_iff_lagged :
    Reversed (bestDirected numericEstimators (quietThenStorm 7 40) (quietThenStorm 10 80))
      (bestDirected numericEstimators (quietThenStorm 10 80) (quietThenStorm 7 40)) :=
  (direction_symmetric_iff numericEstimators (quietThenStorm 7 40) (quietThenStorm 10 80)).1.mpr
    (Or.inl (outweighs_iff_peak.mpr (by decide +kernel)))

/-- Two pods on one volume whose storms rise together. -/
def togetherVectors : Dict Pod Series :=
  .ofList [("cooling-monitor", quietThenStorm 10 40), ("timescaledb", quietThenStorm 10 80)]

def sharedVolume : Witness := ⟨[], [], [("cooling-monitor", "timescaledb")], []⟩

/-- Storms that rise together correlate perfectly at lag 0, and whichever pod comes first is the source. -/
theorem together_order_decides :
    (quietThenStorm 10 40).length = (quietThenStorm 10 80).length ∧
    (bestDirected numericEstimators (quietThenStorm 10 40) (quietThenStorm 10 80)).r ≠ 0 ∧
    ¬ Reversed (bestDirected numericEstimators (quietThenStorm 10 40) (quietThenStorm 10 80))
      (bestDirected numericEstimators (quietThenStorm 10 80) (quietThenStorm 10 40)) ∧
    (psiEdge numericEstimators sharedVolume ["timescaledb"] ∅ togetherVectors
      ("cooling-monitor", "timescaledb")).map Edge.src = some "cooling-monitor" ∧
    (psiEdge numericEstimators sharedVolume ["timescaledb"] ∅ togetherVectors
      ("timescaledb", "cooling-monitor")).map Edge.src = some "timescaledb" := by
  refine ⟨by decide, by decide +kernel, ?_, by decide +kernel, by decide +kernel⟩
  intro h
  exact absurd h.forward (by decide +kernel)

end EdgeCausal
