import EdgeCausal.Collections.Moments
import EdgeCausal.Correctness.LagPeak

/-!
# `Correctness.PlantedDelay` — a planted delay is recovered

A series that replays another one some lag later, scaled and shifted, stays an affine image of it under the
normalisation of both, so either coefficient is 1 at that lag, whichever the skewness selects. Unless another
evaluated lag does as well the search settles there, and the gate admits the edge on any coupling. The range of
the two coefficients, their value on affine data and the deviation of constant data are the statistics packages'
(`SoundCorrelation`).
-/

namespace EdgeCausal

open Lib

/-- All samples are the same. -/
def Constant (x : Series) : Prop := ∀ a ∈ x, ∀ b ∈ x, a = b

/-- What the statistics packages promise. -/
structure SoundCorrelation (est : Estimators) : Prop where
  pearsonr_le : ∀ {a b r}, est.pearsonr a b = some r → |r| ≤ 1
  spearmanr_le : ∀ {a b r}, est.spearmanr a b = some r → |r| ≤ 1
  pearsonr_affine : ∀ {a p q}, 0 < p → ¬ Constant a → est.pearsonr a (affine p q a) = some 1
  spearmanr_affine : ∀ {a p q}, 0 < p → ¬ Constant a → est.spearmanr a (affine p q a) = some 1
  std_constant : ∀ {a}, Constant a → est.std a = 0

section Planted
variable {est : Estimators} {src dst : Series} {lagS : ℕ}

/-- `dst` replays `src`, scaled and shifted, `lagS` later, and both overlapping slices vary. -/
structure Planted (est : Estimators) (src dst : Series) (lagS : ℕ) : Prop where
  configured : lagS ∈ lagsS
  length : dst.length = src.length
  overlap : lagSamples lagS + 12 < src.length
  delayed : ∃ c d, 0 < c ∧ ∀ t, t + lagSamples lagS < src.length →
    dst.getD (t + lagSamples lagS) 0 = c * src.getD t 0 + d
  srcVaries : 1 / 1000000000 ≤ est.std ((znorm est src).take (src.length - lagSamples lagS))
  dstVaries : 1 / 1000000000 ≤ est.std ((znorm est dst).drop (lagSamples lagS))

/-! ## The coefficient at the planted lag -/

/-- Normalisation is an affine map of positive slope. -/
theorem znorm_affine (est : Estimators) (x : Series) : ∃ p q, 0 < p ∧ znorm est x = affine p q x := by
  unfold znorm
  dsimp only
  generalize hscale : (if est.std x > 1 / 1000000000 then est.std x else 1) = scale
  have hpos : 0 < scale := by
    rw [← hscale]
    split
    · rename_i h
      linarith
    · exact one_pos
  refine ⟨scale⁻¹, -mean x / scale, inv_pos.mpr hpos, ?_⟩
  unfold affine
  refine List.map_congr_left fun v _ => ?_
  field_simp
  ring

/-- The replayed slice is an affine image of the slice it replays. -/
theorem Planted.slice (h : Planted est src dst lagS) :
    ∃ c d, 0 < c ∧ dst.drop (lagSamples lagS) = affine c d (src.take (src.length - lagSamples lagS)) := by
  obtain ⟨c, d, hc, hdelayed⟩ := h.delayed
  refine ⟨c, d, hc, ?_⟩
  have hlen := h.length
  have hover := h.overlap
  refine List.ext_getElem (by simp [hlen]) ?_
  intro t ht ht'
  rw [List.length_drop] at ht
  have hsample := hdelayed t (by omega)
  rw [List.getD_eq_getElem _ _ (by omega), List.getD_eq_getElem _ _ (by omega)] at hsample
  simp only [affine, List.getElem_drop, List.getElem_map, List.getElem_take, Nat.add_comm (lagSamples lagS) t]
  rw [hsample]
  ring

/-- The two slices a correlation compares, for every lag alike. -/
theorem corrAtLag_eq (est : Estimators) (a b : Series) (lag : ℕ) : corrAtLag est a b lag =
    if (a.take (a.length - lag)).length < 12 ∨ est.std (a.take (a.length - lag)) < 1 / 1000000000 ∨
      est.std (b.drop lag) < 1 / 1000000000 then 0
    else if |est.skew (a.take (a.length - lag))| > 2 ∨ |est.skew (b.drop lag)| > 2 then
      (est.spearmanr (a.take (a.length - lag)) (b.drop lag)).getD 0
    else (est.pearsonr (a.take (a.length - lag)) (b.drop lag)).getD 0 := by
  unfold corrAtLag
  rcases Nat.eq_zero_or_pos lag with rfl | hpos
  · simp
  · simp only [hpos, ↓reduceIte]

theorem abs_corrAtLag_le (hest : SoundCorrelation est) (a b : Series) (lag : ℕ) :
    |corrAtLag est a b lag| ≤ 1 := by
  have hcoef : ∀ {r : Option ℚ}, (∀ v, r = some v → |v| ≤ 1) → |r.getD 0| ≤ 1 := by
    intro r hr
    cases r with
    | none => simp
    | some v => exact hr v rfl
  rw [corrAtLag_eq]
  split
  · simp
  · split
    · exact hcoef fun v hv => hest.spearmanr_le hv
    · exact hcoef fun v hv => hest.pearsonr_le hv

@[simp] theorem length_znorm (est : Estimators) (x : Series) : (znorm est x).length = x.length := by simp [znorm]

/-- **At the planted lag the correlation is 1**, whichever coefficient the skewness selects. -/
theorem Planted.corrAtLag (hest : SoundCorrelation est) (h : Planted est src dst lagS) :
    corrAtLag est (znorm est src) (znorm est dst) (lagSamples lagS) = 1 := by
  obtain ⟨p, q, hp, hsrc⟩ := znorm_affine est src
  obtain ⟨p', q', hp', hdst⟩ := znorm_affine est dst
  obtain ⟨c, d, hc, hslice⟩ := h.slice
  have hover := h.overlap
  have hsrcVaries := h.srcVaries
  have hdstVaries := h.dstVaries
  have ha : (znorm est src).take (src.length - lagSamples lagS) =
      affine p q (src.take (src.length - lagSamples lagS)) := by
    rw [hsrc, take_affine]
  have hb : (znorm est dst).drop (lagSamples lagS) = affine (p' * c / p) (q' + p' * d - p' * c / p * q)
      ((znorm est src).take (src.length - lagSamples lagS)) := by
    rw [ha, hdst, drop_affine, hslice, affine_of_affine hp.ne']
  have hk : 0 < p' * c / p := by positivity
  have hvaries : ¬ Constant ((znorm est src).take (src.length - lagSamples lagS)) := by
    intro hconst
    rw [hest.std_constant hconst] at hsrcVaries
    norm_num at hsrcVaries
  rw [corrAtLag_eq, length_znorm, if_neg, hb, hest.spearmanr_affine hk hvaries, hest.pearsonr_affine hk hvaries]
  · simp
  · rw [not_or, not_or, not_lt, not_lt, not_lt]
    refine ⟨?_, hsrcVaries, hdstVaries⟩
    rw [List.length_take, length_znorm]
    omega

/-! ## The search -/

theorem alignTail_self (v : Series) : alignTail v.length v = v := by
  unfold alignTail lastN
  split <;> simp

theorem Planted.overlap_eq (h : Planted est src dst lagS) : EdgeCausal.overlap src dst = src.length := by
  rw [EdgeCausal.overlap, h.length, min_self]

theorem Planted.evaluated (h : Planted est src dst lagS) : Evaluated src dst lagS := by
  refine ⟨h.configured, ?_⟩
  rw [h.overlap_eq]
  exact h.overlap

theorem Planted.pairCorr (hest : SoundCorrelation est) (h : Planted est src dst lagS) :
    pairCorr est src dst true lagS = 1 := by
  have hdst := alignTail_self dst
  rw [h.length] at hdst
  unfold EdgeCausal.pairCorr
  rw [h.overlap_eq, alignTail_self, hdst]
  exact h.corrAtLag hest

/-- No correlation exceeds 1. -/
theorem abs_pairCorr_le (hest : SoundCorrelation est) (src dst : Series) (forward : Bool) (lag : ℕ) :
    |pairCorr est src dst forward lag| ≤ 1 := by
  unfold EdgeCausal.pairCorr
  cases forward
  · exact abs_corrAtLag_le hest _ _ _
  · exact abs_corrAtLag_le hest _ _ _

/-- **The search settles at the planted lag**, when no other one correlates as well. -/
theorem Planted.bestDirected (hest : SoundCorrelation est) (h : Planted est src dst lagS)
    (hunique : ∀ forward lag, Evaluated src dst lag → (forward, lag) ≠ (true, lagS) →
      |EdgeCausal.pairCorr est src dst forward lag| ≠ 1) :
    EdgeCausal.bestDirected est src dst = ⟨true, 1, lagS, directedProfile est src dst⟩ := by
  have hpos : EdgeCausal.overlap src dst ≠ 0 := by
    have := h.evaluated.2
    omega
  have hmargin : 0 < directionMargin := by norm_num [directionMargin]
  -- nothing exceeds the planted correlation, so no reverse lag outweighs it
  have hforward : ¬ Outweighs (directedProfile est dst src) (directedProfile est src dst) := by
    rw [outweighs_iff hpos]
    rintro ⟨lag, -, hall⟩
    have hlt := hall lagS h.evaluated
    have hle := abs_pairCorr_le hest src dst false lag
    rw [h.pairCorr hest, abs_one] at hlt
    linarith
  have hchosen := bestDirected_of_not_outweighs hforward
  obtain ⟨hlag, hcorr⟩ := chosen_evaluated est hpos h.evaluated
  have hpeak := abs_le_of_chosen est hpos h.evaluated
  rw [hchosen] at hlag hcorr hpeak ⊢
  simp only [Directed.ofProfile] at hlag hcorr hpeak ⊢
  rw [h.pairCorr hest, abs_one, ← hcorr] at hpeak
  obtain hplanted | hother := eq_or_ne (profilePeak (directedProfile est src dst)).1 lagS
  · rw [hplanted, h.pairCorr hest] at hcorr
    rw [hplanted, ← hcorr]
  · exact absurd (le_antisymm (abs_pairCorr_le hest ..) hpeak) (hunique true _ hlag (by simp [hother]))

/-! ## The gate -/

/-- Onsets that differ, in the right order, by no more than the lag allows pass the temporal clause. -/
theorem temporalOk_of_order {tSrc tDst : Option ℚ}
    (h : ∀ ts td, tSrc = some ts → tDst = some td → ts ≤ td ∧ td - ts ≤ 4 * lagS + temporalTolS) :
    temporalOk tSrc tDst lagS = true := by
  have htol : (0 : ℚ) ≤ temporalTolS := by norm_num [temporalTolS]
  cases tSrc with
  | none => rfl
  | some ts =>
      cases tDst with
      | none => rfl
      | some td =>
          obtain ⟨horder, hclose⟩ := h ts td rfl rfl
          unfold temporalOk
          dsimp only
          rw [if_neg (by linarith), if_neg fun hfar => absurd hfar.2 (not_lt.mpr hclose)]

/-- **A planted delay is recovered**: the forward profile is 1 there, and when no other direction and lag reach 1
    the search returns it and the gate admits the edge, on every coupling, adjacent support and onsets in order. -/
theorem planted_recovered (est : Estimators) (src dst : Series) (lagS : ℕ) (hest : SoundCorrelation est)
    (h : Planted est src dst lagS) :
    (lagProfile est src dst).get? lagS = some 1 ∧
    ((∀ forward lag, Evaluated src dst lag → (forward, lag) ≠ (true, lagS) →
        |pairCorr est src dst forward lag| ≠ 1) →
      let d := bestDirected est src dst
      d.forward = true ∧ d.lagS = lagS ∧ d.r = 1 ∧
      ∀ (p q : Pod) (w : Witness) (onsetS : Dict Pod ℚ), w.couples p q = true →
        (∃ lag r, AdjacentLag d.profile d.lagS lag ∧ d.profile.get? lag = some r ∧ 4 / 10 ≤ |r|) →
        (∀ tp tq, onsetS.get? p = some tp → onsetS.get? q = some tq → tp ≤ tq ∧ tq - tp ≤ 4 * lagS + 10) →
        ∃ e, acceptEdge p q d.r d.lagS d.profile w onsetS = some e ∧ e.src = p ∧ e.dst = q ∧ e.r = 1 ∧
          e.lagS = lagS) := by
  refine ⟨?_, ?_⟩
  · rw [get?_lagProfile, if_pos ⟨h.configured, h.overlap⟩, h.corrAtLag hest]
  · intro hunique
    rw [h.bestDirected hest hunique]
    refine ⟨rfl, rfl, rfl, ?_⟩
    rintro p q w onsetS hcoup ⟨lag, r, hadj, hr, hfloor⟩ honsets
    have htemp : temporalOk (onsetS.get? p) (onsetS.get? q) lagS = true := temporalOk_of_order honsets
    refine ⟨_, acceptEdge_of_clauses (by norm_num [rPeak]) (adjacentSupport_of_adjacent hadj hr hfloor) hcoup htemp,
      rfl, rfl, ?_, rfl⟩
    have hgrid := roundAt_of_grid (K := ℚ) 3 1000
    norm_num at hgrid
    exact hgrid

end Planted

/-! ## Estimators that keep the promise -/

section Clipped
variable {x : Series} {a b p q : ℚ}

/-- A coefficient held to its range. -/
def clip (r : ℚ) : ℚ := max (-1) (min r 1)

/-- The evaluated estimators, with both coefficients held to their range. -/
def clippedEstimators : Estimators :=
  { numericEstimators with
    pearsonr := fun x y => (numericEstimators.pearsonr x y).map clip
    spearmanr := fun x y => (numericEstimators.spearmanr x y).map clip }

theorem abs_clip_le (r : ℚ) : |clip r| ≤ 1 := by
  unfold clip
  rw [abs_le]
  exact ⟨le_max_left _ _, max_le (by norm_num) (min_le_right _ _)⟩

theorem coMoment_eq (x y : Series) : coMoment x y = coSum x y / x.length := rfl

/-- Samples that are not all the same deviate. -/
theorem coMoment_self_pos (hx : ¬ Constant x) : 0 < coMoment x x := by
  obtain ⟨a, ha, b, hb, hne⟩ : ∃ a ∈ x, ∃ b ∈ x, a ≠ b := by
    unfold Constant at hx
    push Not at hx
    exact hx
  have hlen : 0 < (x.length : ℚ) := by exact_mod_cast List.length_pos_of_mem ha
  rw [coMoment_eq]
  exact div_pos (coSum_self_pos ha hb hne) hlen

/-- The coefficient of a list and an affine image of it is exactly 1. -/
theorem pearsonQ_affine (hp : 0 < p) (hx : ¬ Constant x) : pearsonQ x (affine p q x) = some 1 := by
  have hpos := coMoment_self_pos hx
  have hself : coMoment (affine p q x) (affine p q x) = p ^ 2 * coMoment x x := by
    rw [coMoment_eq, coMoment_eq, coSum_affine_self, length_affine, mul_div_assoc]
  have hcross : coMoment x (affine p q x) = p * coMoment x x := by
    rw [coMoment_eq, coMoment_eq, coSum_affine, mul_div_assoc]
  have hsquare : coMoment x x * (p ^ 2 * coMoment x x) = (p * coMoment x x) * (p * coMoment x x) := by ring
  have hprod : 0 < p * coMoment x x := mul_pos hp hpos
  unfold pearsonQ
  dsimp only
  rw [hself, hcross, hsquare, if_neg (mul_pos hprod hprod).ne', sqrtQ_sq hprod.le, div_self hprod.ne']

/-! ### Ranks -/

/-- The average rank of a sample among others. -/
def rankIn (x : Series) (a : ℚ) : ℚ := (x.countP (· < a) : ℚ) + ((x.countP (· = a) : ℚ) + 1) / 2

theorem averageRanks_affine (hp : 0 < p) : averageRanks (affine p q x) = averageRanks x := by
  unfold averageRanks affine
  rw [List.map_map]
  refine List.map_congr_left fun a _ => ?_
  simp only [Function.comp_apply, List.countP_map]
  congr 3
  · funext v
    simp [hp]
  · congr 2
    funext v
    simp [hp.ne']

/-- Larger samples have larger ranks. -/
theorem rankIn_lt (ha : a ∈ x) (hb : b ∈ x) (hab : a < b) : rankIn x a < rankIn x b := by
  have hsame : 1 ≤ x.countP (· = a) := List.countP_pos_iff.mpr ⟨a, ha, by simp⟩
  have hself : 1 ≤ x.countP (· = b) := List.countP_pos_iff.mpr ⟨b, hb, by simp⟩
  have hbelow : x.countP (· < a) + x.countP (· = a) ≤ x.countP (· < b) := by
    clear ha hb hsame hself
    induction x with
    | nil => simp
    | cons v x ih =>
        simp only [List.countP_cons, decide_eq_true_eq]
        split_ifs <;> first | omega | (exfalso; linarith)
  have hsame' : (1 : ℚ) ≤ x.countP (· = a) := by exact_mod_cast hsame
  have hself' : (1 : ℚ) ≤ x.countP (· = b) := by exact_mod_cast hself
  have hbelow' : (x.countP (· < a) : ℚ) + x.countP (· = a) ≤ x.countP (· < b) := by exact_mod_cast hbelow
  unfold rankIn
  linarith

theorem not_constant_averageRanks (hx : ¬ Constant x) : ¬ Constant (averageRanks x) := by
  contrapose! hx
  intro a ha b hb
  have hrank : rankIn x a = rankIn x b := hx _ (List.mem_map_of_mem ha) _ (List.mem_map_of_mem hb)
  rcases lt_trichotomy a b with hlt | heq | hgt
  · exact absurd hrank (rankIn_lt ha hb hlt).ne
  · exact heq
  · exact absurd hrank (rankIn_lt hb ha hgt).ne'

theorem stdQ_constant (hx : Constant x) : stdQ x = 0 := by
  have hzero : coMoment x x = 0 := by
    by_contra hne
    have hmean : ∀ a ∈ x, a - avg x = 0 := by
      intro a ha
      have hrep : x = List.replicate x.length a := List.eq_replicate_of_mem fun b hb => hx b hb a ha
      have hlen : (x.length : ℚ) ≠ 0 := by exact_mod_cast (List.length_pos_of_mem ha).ne'
      unfold avg
      rw [hrep, List.sum_replicate, List.length_replicate, nsmul_eq_mul, mul_div_cancel_left₀ _ hlen, sub_self]
    refine hne ?_
    rw [coMoment_eq, coSum_self, List.map_congr_left fun a ha => by rw [hmean a ha, zero_pow two_ne_zero]]
    simp
  have hroot := sqrtQ_sq (le_refl 0)
  rw [mul_zero] at hroot
  rw [stdQ, hzero, hroot]

theorem clipped_sound : SoundCorrelation clippedEstimators where
  pearsonr_le {a b r} h := by
    obtain ⟨v, -, rfl⟩ := Option.map_eq_some_iff.mp h
    exact abs_clip_le v
  spearmanr_le {a b r} h := by
    obtain ⟨v, -, rfl⟩ := Option.map_eq_some_iff.mp h
    exact abs_clip_le v
  pearsonr_affine {a p q} hp ha := by
    show (pearsonQ a (affine p q a)).map clip = some 1
    rw [pearsonQ_affine hp ha]
    rfl
  spearmanr_affine {a p q} hp ha := by
    have hself := pearsonQ_affine (q := 0) one_pos (not_constant_averageRanks ha)
    rw [affine_one_zero] at hself
    show (pearsonQ (averageRanks a) (averageRanks (affine p q a))).map clip = some 1
    rw [averageRanks_affine hp, hself]
    rfl
  std_constant ha := stdQ_constant ha

end Clipped

/-! ## A ramp and its echo -/

/-- A load that rises and falls. -/
def ramp : Series := List.replicate 5 0 ++ [1, 2, 4, 7, 9, 10, 9, 7, 4, 2, 1] ++ List.replicate 8 0

/-- The same load fifteen seconds later, at twice the level and over another floor. -/
def echo : Series := List.replicate 3 1 ++ (ramp.take 21).map fun v => 2 * v + 1

def rampCall : Witness := ⟨[("opcua-bridge", "stream-processor")], [], [], []⟩

def rampOnsets : Dict Pod ℚ := .ofList [("opcua-bridge", 25), ("stream-processor", 40)]

theorem ramp_planted : Planted clippedEstimators ramp echo 15 := by
  have hecho : ∀ t < 21, echo.getD (t + 3) 0 = 2 * ramp.getD t 0 + 1 := by decide +kernel
  have hlag : lagSamples 15 = 3 := by decide +kernel
  refine ⟨by decide, by decide, by decide +kernel, ⟨2, 1, by norm_num, ?_⟩, by decide +kernel, by decide +kernel⟩
  intro t ht
  have hlen : ramp.length = 24 := by decide
  rw [hlag] at ht ⊢
  exact hecho t (by omega)

/-- The ramp leads its echo by fifteen seconds, and the call between the two pods admits the edge. -/
theorem planted_recovered_ramp :
    let d := bestDirected clippedEstimators ramp echo
    d.forward = true ∧ d.lagS = 15 ∧
    ∃ e, acceptEdge "opcua-bridge" "stream-processor" d.r d.lagS d.profile rampCall rampOnsets = some e ∧
      e.r = 1 := by
  have hrest : ∀ lag ∈ lagsS, ∀ forward : Bool, (forward, lag) ≠ (true, 15) →
      |pairCorr clippedEstimators ramp echo forward lag| ≠ 1 := by decide +kernel
  have hadj : AdjacentLag (bestDirected clippedEstimators ramp echo).profile
      (bestDirected clippedEstimators ramp echo).lagS 5 := by
    unfold AdjacentLag
    decide +kernel
  have hfive : (bestDirected clippedEstimators ramp echo).profile.get? 5 =
      some (((bestDirected clippedEstimators ramp echo).profile.get? 5).getD 0) := by decide +kernel
  have hordered : ∀ tp tq, rampOnsets.get? "opcua-bridge" = some tp → rampOnsets.get? "stream-processor" = some tq →
      tp ≤ tq ∧ tq - tp ≤ 4 * (15 : ℕ) + 10 := by
    intro tp tq hp hq
    obtain rfl : 25 = tp :=
      Option.some.inj ((by decide : rampOnsets.get? "opcua-bridge" = some 25).symm.trans hp)
    obtain rfl : 40 = tq :=
      Option.some.inj ((by decide : rampOnsets.get? "stream-processor" = some 40).symm.trans hq)
    norm_num
  obtain ⟨hforward, hlag, -, hgate⟩ :=
    (planted_recovered clippedEstimators ramp echo 15 clipped_sound ramp_planted).2
    fun forward lag hlag hne => hrest lag hlag.1 forward hne
  obtain ⟨e, he, -, -, hr, -⟩ := hgate "opcua-bridge" "stream-processor" rampCall rampOnsets (by decide)
    ⟨5, _, hadj, hfive, by decide +kernel⟩ hordered
  exact ⟨hforward, hlag, e, he, hr⟩

end EdgeCausal
