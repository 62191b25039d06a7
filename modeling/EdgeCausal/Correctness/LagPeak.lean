import EdgeCausal.Correctness.DirectionSymmetry

/-!
# `Correctness.LagPeak` — when the chosen lag is the strongest usable one

A lag is usable when it leaves the twelve samples that a correlation asks for. The profile asks for one more, so
a series that is exactly twelve samples longer than a lag is never evaluated there; and a reverse direction that
is stronger by no more than the margin gives way to the forward one. The lag and the direction chosen are the
strongest of the usable ones exactly when neither of the two matters (`optimalLag_iff`).
-/

namespace EdgeCausal

open Lib

section Peak
variable {est : Estimators} {src dst : Series} {forward : Bool} {lag lag' : ℕ} {r : ℚ}

/-- The common length two series are cut to. -/
def overlap (src dst : Series) : ℕ := min src.length dst.length

/-- The correlation of two series, cut to their common length and normalised, in one direction at one lag. -/
def pairCorr (est : Estimators) (src dst : Series) (forward : Bool) (lag : ℕ) : ℚ :=
  let a := znorm est (alignTail (overlap src dst) src)
  let b := znorm est (alignTail (overlap src dst) dst)
  if forward then corrAtLag est a b (lagSamples lag) else corrAtLag est b a (lagSamples lag)

/-- A configured lag that leaves the samples a correlation requires. -/
def Usable (src dst : Series) (lag : ℕ) : Prop := lag ∈ lagsS ∧ lagSamples lag + 12 ≤ overlap src dst

/-- A configured lag that the profiles have. -/
def Evaluated (src dst : Series) (lag : ℕ) : Prop := lag ∈ lagsS ∧ lagSamples lag + 12 < overlap src dst

theorem Evaluated.usable (h : Evaluated src dst lag) : Usable src dst lag := ⟨h.1, h.2.le⟩

/-- The profile of a direction. -/
def profileOf (est : Estimators) (src dst : Series) (forward : Bool) : Dict ℕ ℚ :=
  if forward then directedProfile est src dst else directedProfile est dst src

theorem length_alignTail {n : ℕ} {v : Series} (hpos : n ≠ 0) (hn : n ≤ v.length) :
    (alignTail n v).length = n := by
  unfold alignTail lastN
  rw [if_neg hpos, List.length_drop]
  omega

/-- **The profiles hold the correlations of the evaluated lags.** -/
theorem get?_profileOf (est : Estimators) (forward : Bool) (hpos : overlap src dst ≠ 0) :
    (profileOf est src dst forward).get? lag = some r ↔
      Evaluated src dst lag ∧ pairCorr est src dst forward lag = r := by
  have hsrc := length_alignTail hpos (min_le_left src.length dst.length)
  have hdst := length_alignTail hpos (min_le_right src.length dst.length)
  have hfold : min src.length dst.length = overlap src dst := rfl
  have hcomm : min dst.length src.length = overlap src dst := min_comm _ _
  unfold profileOf directedProfile pairCorr Evaluated
  rw [hfold, hcomm]
  cases forward
  · rw [if_neg (by simp), get?_lagProfile, hdst]
    simp
  · rw [if_pos rfl, get?_lagProfile, hsrc]
    simp

/-- The peak of a profile that is not empty is one of its entries. -/
theorem profilePeak_of_entry {p : Dict ℕ ℚ} (h : p.get? lag = some r) :
    p.get? (profilePeak p).1 = some (profilePeak p).2 := by
  unfold profilePeak
  cases hmax : firstMax (fun kv : ℕ × ℚ => |kv.2|) p.entries with
  | none =>
      have hmem := Dict.get?_eq_some_iff.mp h
      rw [firstMax_eq_none_iff.mp hmax] at hmem
      exact absurd hmem List.not_mem_nil
  | some kv => exact Dict.get?_eq_some_iff.mpr (firstMax_mem hmax)

/-- The chosen lag is a peak of one of the two profiles. -/
theorem bestDirected_peak (est : Estimators) (src dst : Series) :
    ((bestDirected est src dst).lagS, (bestDirected est src dst).r) =
      profilePeak (profileOf est src dst (bestDirected est src dst).forward) := by
  obtain ⟨hprofile, hpeak⟩ := bestDirected_spec est src dst
  rw [hpeak, hprofile]
  unfold profileOf
  rfl

/-! ## The result -/

/-- The chosen direction and lag are the strongest of all usable ones. -/
structure OptimalLag (est : Estimators) (src dst : Series) : Prop where
  best : ∀ forward lag, Usable src dst lag → |pairCorr est src dst forward lag| ≤ |(bestDirected est src dst).r|
  attained : (∃ lag, Usable src dst lag) → Usable src dst (bestDirected est src dst).lagS ∧
    pairCorr est src dst (bestDirected est src dst).forward (bestDirected est src dst).lagS =
      (bestDirected est src dst).r

/-- A lag that leaves exactly twelve samples is no stronger than one that is evaluated (or than nothing), and a
    reverse lag that beats every forward one does so by more than the margin, or some other one does. -/
structure NoLagMissed (est : Estimators) (src dst : Series) : Prop where
  last : ∀ forward lag, lag ∈ lagsS → lagSamples lag + 12 = overlap src dst → pairCorr est src dst forward lag = 0 ∨
    ∃ forward' lag', Evaluated src dst lag' ∧
      |pairCorr est src dst forward lag| ≤ |pairCorr est src dst forward' lag'|
  margin : (∃ lag, Evaluated src dst lag ∧ ∀ lag', Evaluated src dst lag' →
      |pairCorr est src dst true lag'| < |pairCorr est src dst false lag|) →
    ∃ lag, Evaluated src dst lag ∧ ∀ lag', Evaluated src dst lag' →
      |pairCorr est src dst true lag'| + directionMargin < |pairCorr est src dst false lag|

/-- Outweighing, in terms of the evaluated lags. -/
theorem outweighs_iff (hpos : overlap src dst ≠ 0) :
    Outweighs (directedProfile est dst src) (directedProfile est src dst) ↔
      ∃ lag, Evaluated src dst lag ∧ ∀ lag', Evaluated src dst lag' →
        |pairCorr est src dst true lag'| + directionMargin < |pairCorr est src dst false lag| := by
  have hfwd : ∀ {lag r}, (directedProfile est src dst).get? lag = some r ↔
      Evaluated src dst lag ∧ pairCorr est src dst true lag = r := get?_profileOf est true hpos
  have hrev : ∀ {lag r}, (directedProfile est dst src).get? lag = some r ↔
      Evaluated src dst lag ∧ pairCorr est src dst false lag = r := get?_profileOf est false hpos
  unfold Outweighs
  constructor
  · rintro ⟨lag, r, hr, -, hall⟩
    obtain ⟨hlag, rfl⟩ := hrev.mp hr
    exact ⟨lag, hlag, fun lag' hlag' => hall lag' _ (hfwd.mpr ⟨hlag', rfl⟩)⟩
  · rintro ⟨lag, hlag, hall⟩
    have hself := hall lag hlag
    have hnonneg := abs_nonneg (pairCorr est src dst true lag)
    refine ⟨lag, _, hrev.mpr ⟨hlag, rfl⟩, by linarith, ?_⟩
    intro lag' r' hr'
    obtain ⟨hlag', rfl⟩ := hfwd.mp hr'
    exact hall lag' hlag'

/-- The strength of the choice bounds every evaluated lag of the chosen direction. -/
theorem abs_le_of_chosen (est : Estimators) (hpos : overlap src dst ≠ 0) (hlag : Evaluated src dst lag) :
    |pairCorr est src dst (bestDirected est src dst).forward lag| ≤ |(bestDirected est src dst).r| := by
  have hentry := (get?_profileOf est (bestDirected est src dst).forward hpos).mpr ⟨hlag, rfl⟩
  have hle := le_profilePeak hentry
  rw [← bestDirected_peak] at hle
  exact hle

/-- Where some lag is evaluated the choice is one of them. -/
theorem chosen_evaluated (est : Estimators) (hpos : overlap src dst ≠ 0) (hlag : Evaluated src dst lag) :
    Evaluated src dst (bestDirected est src dst).lagS ∧
      pairCorr est src dst (bestDirected est src dst).forward (bestDirected est src dst).lagS =
        (bestDirected est src dst).r := by
  have hentry := profilePeak_of_entry
    ((get?_profileOf est (bestDirected est src dst).forward hpos).mpr ⟨hlag, rfl⟩)
  rw [← bestDirected_peak] at hentry
  exact (get?_profileOf est _ hpos).mp hentry

/-- Where none is, the choice is nothing. -/
theorem chosen_of_none (est : Estimators) (hpos : overlap src dst ≠ 0)
    (hnone : ∀ lag, ¬ Evaluated src dst lag) :
    (bestDirected est src dst).lagS = 0 ∧ (bestDirected est src dst).r = 0 := by
  have hnil : (profileOf est src dst (bestDirected est src dst).forward).entries = [] := by
    refine List.eq_nil_iff_forall_not_mem.mpr ?_
    rintro ⟨lag, r⟩ hmem
    exact hnone lag ((get?_profileOf est _ hpos).mp (Dict.get?_eq_some_iff.mpr hmem)).1
  have hpeak := bestDirected_peak est src dst
  unfold profilePeak at hpeak
  rw [hnil] at hpeak
  exact Prod.mk.inj hpeak

theorem OptimalLag.noLagMissed (hpos : overlap src dst ≠ 0) (h : OptimalLag est src dst) :
    NoLagMissed est src dst := by
  refine ⟨?_, ?_⟩
  · intro forward lag hmem heq
    have hle := h.best forward lag ⟨hmem, heq.le⟩
    by_cases hsome : ∃ lag, Evaluated src dst lag
    · obtain ⟨lag', hlag'⟩ := hsome
      obtain ⟨hchosen, hcorr⟩ := chosen_evaluated est hpos hlag'
      exact Or.inr ⟨_, _, hchosen, hcorr.symm ▸ hle⟩
    · rw [(chosen_of_none est hpos (not_exists.mp hsome)).2, abs_zero] at hle
      exact Or.inl (abs_eq_zero.mp (le_antisymm hle (abs_nonneg _)))
  · rintro ⟨lag, hlag, hbeats⟩
    rw [← outweighs_iff hpos]
    by_contra hnot
    -- the forward direction was chosen, and a reverse lag beats all of it
    obtain ⟨hchosen, hcorr⟩ := chosen_evaluated est hpos hlag
    have hbest := h.best false lag hlag.usable
    have hlt := hbeats _ hchosen
    rw [bestDirected_of_not_outweighs hnot] at hcorr hlt hbest
    exact absurd (hcorr.symm ▸ hbest) (not_le.mpr hlt)

/-- With none missed the choice bounds every evaluated lag of both directions. -/
theorem NoLagMissed.evaluated_le (hpos : overlap src dst ≠ 0) (h : NoLagMissed est src dst) (forward : Bool)
    (hlag : Evaluated src dst lag) : |pairCorr est src dst forward lag| ≤ |(bestDirected est src dst).r| := by
  have hmargin : 0 < directionMargin := by norm_num [directionMargin]
  have hown : ∀ lag, Evaluated src dst lag → |pairCorr est src dst (bestDirected est src dst).forward lag| ≤
      |(bestDirected est src dst).r| := fun lag hlag => abs_le_of_chosen est hpos hlag
  by_cases hout : Outweighs (directedProfile est dst src) (directedProfile est src dst)
  · rw [bestDirected_of_outweighs hout] at hown ⊢
    cases forward with
    | false => exact hown lag hlag
    | true =>
        obtain ⟨best, hbest, hall⟩ := (outweighs_iff hpos).mp hout
        have hforward := hall lag hlag
        have hreverse := hown best hbest
        simp only [Directed.ofProfile] at hreverse ⊢
        linarith
  · rw [bestDirected_of_not_outweighs hout] at hown ⊢
    cases forward with
    | true => exact hown lag hlag
    | false =>
        by_contra hgt
        refine hout ((outweighs_iff hpos).mpr (h.margin ⟨lag, hlag, ?_⟩))
        exact fun lag' hlag' => (hown lag' hlag').trans_lt (not_le.mp hgt)

theorem NoLagMissed.optimalLag (hpos : overlap src dst ≠ 0) (h : NoLagMissed est src dst) :
    OptimalLag est src dst := by
  refine ⟨?_, ?_⟩
  · rintro forward lag ⟨hmem, hle⟩
    rcases hle.eq_or_lt with heq | hlt
    · rcases h.last forward lag hmem heq with hzero | ⟨forward', lag', hlag', hle'⟩
      · rw [hzero, abs_zero]
        exact abs_nonneg _
      · exact hle'.trans (h.evaluated_le hpos forward' hlag')
    · exact h.evaluated_le hpos forward ⟨hmem, hlt⟩
  · rintro ⟨lag, hlag⟩
    by_cases hsome : ∃ lag, Evaluated src dst lag
    · obtain ⟨lag', hlag'⟩ := hsome
      obtain ⟨hchosen, hcorr⟩ := chosen_evaluated est hpos hlag'
      exact ⟨hchosen.usable, hcorr⟩
    · -- twelve samples: lag 0 is usable and not evaluated
      have hnone := not_exists.mp hsome
      obtain ⟨hzero, hr⟩ := chosen_of_none est hpos hnone
      have hmem : 0 ∈ lagsS := by decide
      have htwelve : lagSamples 0 + 12 = overlap src dst := by
        have hge : ¬ lagSamples 0 + 12 < overlap src dst := fun hlt => hnone 0 ⟨hmem, hlt⟩
        have hle := hlag.2
        rw [lagSamples_zero] at hge ⊢
        omega
      rw [hzero, hr]
      refine ⟨⟨hmem, htwelve.le⟩, ?_⟩
      rcases h.last (bestDirected est src dst).forward 0 hmem htwelve with hcorr | ⟨_, lag', hlag', -⟩
      · exact hcorr
      · exact absurd hlag' (hnone lag')

/-- **The chosen direction and lag are the strongest usable ones exactly when none is missed.** -/
theorem optimalLag_iff (est : Estimators) (src dst : Series) :
    OptimalLag est src dst ↔ NoLagMissed est src dst := by
  rcases lt_or_ge (overlap src dst) 12 with hshort | hlong
  · -- too short for any lag
    have hnone : ∀ lag, ¬ Usable src dst lag := by
      intro lag h
      have := h.2
      omega
    refine iff_of_true ⟨fun _ lag h => absurd h (hnone lag), fun ⟨lag, h⟩ => absurd h (hnone lag)⟩ ⟨?_, ?_⟩
    · intro _ lag _ heq
      omega
    · rintro ⟨lag, h, -⟩
      exact absurd h.usable (hnone lag)
  · have hpos : overlap src dst ≠ 0 := by omega
    exact ⟨fun h => h.noLagMissed hpos, fun h => h.optimalLag hpos⟩

end Peak

/-- Twelve samples of load. -/
def load : Series := [3, 1, 4, 1, 5, 9, 2, 6, 5, 3, 5, 8]

/-- A load that settles at its median, over the length of the analysed slice. -/
def loadThenIdle : Series := load ++ List.replicate 24 4

/-- The same load, two minutes later. -/
def idleThenLoad : Series := List.replicate 24 4 ++ load

/-- In the deployed slice of 36 samples a delay of 120 s leaves exactly twelve. A load that is replayed after it
    correlates perfectly there, and the choice reports next to nothing. -/
theorem longest_lag_missed :
    loadThenIdle.length = 36 ∧ idleThenLoad.length = 36 ∧ Usable loadThenIdle idleThenLoad 120 ∧
    pairCorr numericEstimators loadThenIdle idleThenLoad true 120 = 1 ∧
    |(bestDirected numericEstimators loadThenIdle idleThenLoad).r| < 1 / 10 ∧
    ¬ OptimalLag numericEstimators loadThenIdle idleThenLoad := by
  have husable : Usable loadThenIdle idleThenLoad 120 := ⟨by decide, by decide +kernel⟩
  have hcorr : pairCorr numericEstimators loadThenIdle idleThenLoad true 120 = 1 := by decide +kernel
  have hweak : |(bestDirected numericEstimators loadThenIdle idleThenLoad).r| < 1 / 10 := by decide +kernel
  refine ⟨by decide, by decide, husable, hcorr, hweak, ?_⟩
  intro h
  have hbest := h.best true 120 husable
  rw [hcorr, abs_one] at hbest
  linarith

end EdgeCausal
