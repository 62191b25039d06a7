import EdgeCausal.Correctness.Onsets
import EdgeCausal.Engine.Forecast

/-!
# `Correctness.Forecast` — what is fitted, and when a climb is reported

The slope is fitted over a segment that ends at the last sample and starts at or after every upward onset, unless
that leaves too few samples (`last_onset_recent`). A warning is therefore a projection of samples that are all
there, and of a straight climb it is the exact one (`incipient_exact`).
-/

namespace EdgeCausal

open Lib

/-! ## The fitted segment -/

section Segment
variable {x : Series} {o o' : Onset}

/-- The onsets of one direction, in list order. -/
theorem cusumOnsets_ordered (p : CusumParams) (x : Series) (d : Direction) :
    ((cusumOnsetsWith p x).filter fun o => o.direction = d).Pairwise fun o o' => o.idx ≤ o'.idx := by
  rw [cusumOnsets_eq_alarms, List.filter_map, List.pairwise_map]
  have hspaced := (seriesAlarms_spaced p x).filter ((fun o : Onset => decide (o.direction = d)) ∘
    Alarm.onset (residualZ p x))
  refine hspaced.imp_of_mem ?_
  intro a b ha hb hab
  have hda : a.direction = d := of_decide_eq_true (List.mem_filter.mp ha).2
  have hdb : b.direction = d := of_decide_eq_true (List.mem_filter.mp hb).2
  exact onset_idx_mono (hda.trans hdb.symm) (by omega)

/-- The last upward onset is the most recent one. -/
theorem le_last_up {up : ℕ}
    (hup : (((cusumOnsets x).filter fun o => o.direction = .up).map Onset.idx).getLast? = some up)
    (ho : o ∈ cusumOnsets x) (hdir : o.direction = .up) : o.idx ≤ up := by
  have hsorted := (cusumOnsets_ordered cusumDefaults x .up)
  have hmem : o.idx ∈ ((cusumOnsets x).filter fun o => o.direction = .up).map Onset.idx :=
    List.mem_map_of_mem (List.mem_filter.mpr ⟨ho, by simpa using hdir⟩)
  obtain ⟨before, hbefore⟩ := List.getLast?_eq_some_iff.mp hup
  have hpair : (((cusumOnsets x).filter fun o => o.direction = .up).map Onset.idx).Pairwise (· ≤ ·) :=
    List.pairwise_map.mpr hsorted
  rw [hbefore] at hmem hpair
  rcases List.mem_append.mp hmem with hmem | hmem
  · exact (List.pairwise_append.mp hpair).2.2 _ hmem up (by simp)
  · exact (List.mem_singleton.mp hmem).le

/-- Where the fitted segment starts, and how long it is. -/
structure FitsFrom (x : Series) (tail minN start : ℕ) : Prop where
  le : start ≤ x.length
  recent : (∀ o ∈ cusumOnsets x, o.direction = .up → o.idx ≤ start) ∨ start = x.length - min x.length minN
  shortest : min x.length minN ≤ x.length - start
  longest : x.length - start ≤ max tail minN

/-- **The fitted segment** ends at the last sample. -/
theorem fitSegment_spec (x : Series) (tail minN : ℕ) :
    ∃ start, fitSegment x tail minN = x.drop start ∧ FitsFrom x tail minN start := by
  unfold fitSegment
  dsimp only
  cases hup : (((cusumOnsets x).filter fun o => o.direction = .up).map Onset.idx).getLast? with
  | none =>
      refine ⟨_, rfl, ?_, Or.inl ?_, ?_, ?_⟩
      · dsimp only
        omega
      · intro o ho hdir
        have hnil := List.map_eq_nil_iff.mp (List.getLast?_eq_none_iff.mp hup)
        exact absurd (by simpa using hdir) (List.filter_eq_nil_iff.mp hnil o ho)
      · dsimp only
        omega
      · dsimp only
        omega
  | some up =>
      refine ⟨_, rfl, ?_, ?_, ?_, ?_⟩
      · dsimp only
        omega
      · dsimp only
        rcases le_or_gt (max ((x.length : ℤ) - tail) up) ((x.length : ℤ) - minN) with hle | hgt
        · refine Or.inl fun o ho hdir => (le_last_up hup ho hdir).trans ?_
          omega
        · -- the clamp to `minN` samples is the one that decides
          right
          omega
      · dsimp only
        omega
      · dsimp only
        omega

/-- What the onsets of a series are, and what is fitted after them. -/
structure LastOnsetRecent (p : CusumParams) (x : Series) (tail minN : ℕ) : Prop where
  ordered : ∀ d, ((cusumOnsetsWith p x).filter fun o => o.direction = d).Pairwise fun o o' => o.idx ≤ o'.idx
  alarms : cusumOnsetsWith p x = (seriesAlarms p x).map (Alarm.onset (residualZ p x))
  spaced : (seriesAlarms p x).Pairwise fun a b => a.pos + 3 ≤ b.pos
  raised : ∀ a ∈ seriesAlarms p x, a.pos < x.length ∧ alarmAt p (residualZ p x) a.pos = some a.direction ∧
    (a.onset (residualZ p x)).idx ≤ a.pos
  run : ∀ a ∈ seriesAlarms p x, ∀ j, (a.onset (residualZ p x)).idx ≤ j → j < a.pos →
    1 / 2 < a.direction.sign * (residualZ p x).getD j 0
  segment : ∃ start, fitSegment x tail minN = x.drop start ∧ FitsFrom x tail minN start

/-- **The last upward onset is the most recent one**, and the slope is fitted after it. -/
theorem last_onset_recent (p : CusumParams) (x : Series) (tail minN : ℕ) : LastOnsetRecent p x tail minN where
  ordered := cusumOnsets_ordered p x
  alarms := cusumOnsets_eq_alarms p x
  spaced := seriesAlarms_spaced p x
  raised := by
    intro a ha
    obtain ⟨-, -, hlt, hraised⟩ := mem_seriesAlarms.mp ha
    exact ⟨hlt, hraised, onset_idx_le a⟩
  run := fun _ _ _ hj hlt => onset_run hj hlt
  segment := fitSegment_spec x tail minN

/-- A segment that is long enough ends at the series' last sample. -/
theorem getLast?_fitSegment {minN : ℕ} (tail : ℕ) (hmin : 0 < minN) (hx : x ≠ []) :
    (fitSegment x tail minN).getLast? = x.getLast? := by
  obtain ⟨start, hseg, hfits⟩ := fitSegment_spec x tail minN
  have hpos := List.length_pos_iff.mpr hx
  have hshort := hfits.shortest
  have hlt : start < x.length := by omega
  rw [hseg, List.getLast?_drop, if_neg (by omega)]

end Segment

/-! ## The projection -/

section Projection
variable {x : Series} {limit eta : ℚ}

theorem polyfitSlope_eq_fitSlope (y : Series) : polyfitSlope y = fitSlope (steps y.length) y := by
  have hsteps : (List.range y.length >>= fun i => pure (i : ℚ)) = (steps y.length : Series) :=
    bind_pure_comp _ _
  unfold polyfitSlope fitSlope
  rw [coSum_self, List.map_id', hsteps]
  rfl

theorem alignTail_length (x : Series) : alignTail x.length x = x := by
  unfold alignTail lastN
  split
  · rfl
  · rw [Nat.sub_self, List.drop_zero]

/-- The projection over a whole slice: its slope, and the time its last sample takes at that slope. -/
theorem forecastToLimit_eq_some (h : forecastToLimit x limit x.length = some eta) :
    1 / 1000000000 < polyfitSlope x ∧ eta = (limit - x.getLastD 0) / polyfitSlope x * dtS ∧
      x.getLastD 0 ≤ limit ∧ 0 ≤ eta ∧ eta ≤ 3600 := by
  unfold forecastToLimit at h
  rw [if_pos le_rfl, alignTail_length] at h
  dsimp only at h
  split at h
  · exact absurd h (by simp)
  · rename_i htrend
    split at h
    · exact absurd h (by simp)
    · rename_i hreach
      obtain rfl := Option.some.inj h
      have hslope := not_le.mp (not_or.mp htrend).1
      obtain ⟨hleft, hcap⟩ := not_or.mp hreach
      have hpos : 0 < polyfitSlope x := lt_trans (by norm_num) hslope
      have hleft' := not_lt.mp hleft
      refine ⟨hslope, rfl, ?_, mul_nonneg hleft' (by norm_num [dtS]), not_lt.mp hcap⟩
      have hmul := mul_nonneg hleft' hpos.le
      rw [div_mul_cancel₀ _ hpos.ne'] at hmul
      exact sub_nonneg.mp hmul

/-- What is projected trends: the samples that vary correlate with their own clock by at least one half. -/
theorem forecastToLimit_trends (h : forecastToLimit x limit x.length = some eta)
    (hvaries : 0 < coSum (steps x.length : Series) (steps x.length) * coSum x x) :
    (1 / 2 : ℝ) ≤ (coSum (steps x.length) x : ℚ) /
      √(((coSum (steps x.length) (steps x.length) : ℚ) : ℝ) * (coSum x x : ℚ)) := by
  unfold forecastToLimit at h
  rw [if_pos le_rfl, alignTail_length] at h
  dsimp only at h
  split at h
  · exact absurd h (by simp)
  · rename_i htrend
    have hfit := (belowCorr_iff (by norm_num) hvaries).not.mp (not_or.mp htrend).2
    push_cast at hfit
    exact not_lt.mp hfit

variable {a s : ℚ} {n : ℕ}

/-- A line fits itself perfectly. -/
theorem line_fits (hn : 2 ≤ n) (hs : 0 < s) : ¬ belowCorr (1 / 2) (coSum (steps n) (line a s n))
    (coSum (steps n : Series) (steps n)) (coSum (line a s n) (line a s n)) := by
  have hpos : 0 < coSum (steps n : Series) (steps n) := coSum_steps_pos hn
  unfold belowCorr line
  rw [coSum_affine, coSum_affine_self]
  rintro ⟨-, hneg | hweak⟩
  · exact absurd hneg (not_lt.mpr (by positivity))
  · have hsq : 0 < (s * coSum (steps n : Series) (steps n)) ^ 2 := by positivity
    nlinarith

/-- The projection of a line. -/
theorem forecastToLimit_line (hn : 2 ≤ n) : forecastToLimit (line a s n) limit n =
    if s ≤ 1 / 1000000000 then none
    else
      let eta := (limit - (a + s * (n - 1 : ℕ))) / s * dtS
      if limit < a + s * (n - 1 : ℕ) ∨ eta > 3600 then none else some eta := by
  have hslope : polyfitSlope (line a s n) = s := by
    rw [polyfitSlope_eq_fitSlope, length_line, fitSlope_line hn]
  have hlast : (line a s n).getLastD 0 = a + s * (n - 1 : ℕ) := by
    rw [List.getLastD_eq_getLast?, getLast?_line a s (by omega), Option.getD_some]
  have halign := alignTail_length (line a s n)
  rw [length_line] at halign
  unfold forecastToLimit
  rw [length_line, if_pos le_rfl, halign]
  dsimp only
  rw [hslope, hlast, length_line]
  by_cases hs : s ≤ 1 / 1000000000
  · rw [if_pos (Or.inl hs), if_pos hs]
  · have hpos : 0 < s := lt_trans (by norm_num) (not_le.mp hs)
    have hneg : (limit - (a + s * (n - 1 : ℕ))) / s < 0 ↔ limit < a + s * (n - 1 : ℕ) := by
      rw [div_lt_iff₀ hpos, zero_mul, sub_neg]
    rw [if_neg (not_or.mpr ⟨hs, line_fits hn hpos⟩), if_neg hs]
    simp only [hneg]

/-- The segment of a line is a line of the same slope that ends at the same sample. -/
theorem fitSegment_line (tail : ℕ) {minN : ℕ} (hn : minN ≤ n) (hmin : 2 ≤ minN) :
    ∃ m a', 2 ≤ m ∧ fitSegment (line a s n) tail minN = line a' s m ∧
      a' + s * (m - 1 : ℕ) = a + s * (n - 1 : ℕ) := by
  obtain ⟨start, hseg, hfits⟩ := fitSegment_spec (line a s n) tail minN
  have hshort := hfits.shortest
  rw [length_line, min_eq_right hn] at hshort
  refine ⟨n - start, a + s * start, by omega, ?_, ?_⟩
  · rw [hseg, drop_line]
  · have hcast : ((n - 1 : ℕ) : ℚ) = (start : ℚ) + ((n - start - 1 : ℕ) : ℚ) := by
      rw [← Nat.cast_add]
      congr 1
      omega
    rw [hcast]
    ring

end Projection

/-! ## The warnings -/

section Warnings
variable {limits : Dict Pod ℚ} {memVectors : Dict Pod Series} {horizonS minFrac : ℚ} {tail : ℕ} {pod : Pod}
  {x : Series} {f : Incipient}

/-- What a warning rests on, before rounding. -/
structure Projected (limits : Dict Pod ℚ) (horizonS : ℚ) (tail : ℕ) (minFrac : ℚ) (x : Series) (f : Incipient)
    (limit cur eta : ℚ) : Prop where
  capped : limits.get? f.pod = some limit
  pos : 0 < limit
  current : x.getLast? = some cur
  past : minFrac * limit ≤ cur
  under : cur ≤ limit
  projected : forecastToLimit (fitSegment x tail minFitN) limit (fitSegment x tail minFitN).length = some eta
  nonneg : 0 ≤ eta
  soon : eta ≤ min horizonS 3600
  shown : f.etaS = roundAt 1 eta ∧ f.value = roundHalfEven cur ∧ f.limit = roundHalfEven limit

/-- The checks of one pod, passed. -/
theorem incipientFinding_iff {limit cur : ℚ} (hlimit : limits.get? pod = some limit)
    (hcur : x.getLast? = some cur) :
    incipientFinding limits horizonS tail minFrac pod x = some f ↔
      0 < limit ∧ minFrac * limit ≤ cur ∧
      ∃ eta, forecastToLimit (fitSegment x tail minFitN) limit (fitSegment x tail minFitN).length = some eta ∧
        eta ≤ horizonS ∧ f = ⟨pod, "mem", "incipient", .leak, roundAt 1 eta, roundHalfEven cur, roundHalfEven limit,
          roundAt 3 (max 0 (1 - cur / limit))⟩ := by
  unfold incipientFinding
  rw [hlimit, hcur]
  dsimp only
  by_cases hpos : limit ≤ 0
  · rw [if_pos hpos]
    exact iff_of_false (by simp) fun h => absurd h.1 (not_lt.mpr hpos)
  · by_cases hpast : cur < minFrac * limit
    · rw [if_neg hpos, if_pos hpast]
      exact iff_of_false (by simp) fun h => absurd hpast (not_lt.mpr h.2.1)
    · rw [if_neg hpos, if_neg hpast, and_iff_right (not_le.mp hpos), and_iff_right (not_lt.mp hpast)]
      cases hfc : forecastToLimit (fitSegment x tail minFitN) limit (fitSegment x tail minFitN).length with
      | none => simp
      | some eta =>
          by_cases hsoon : eta > horizonS
          · simp [hsoon, not_le.mpr hsoon]
          · simp [hsoon, not_lt.mp hsoon, eq_comm]

/-- A warning needs a limit and a sample. -/
theorem exists_of_incipientFinding (h : incipientFinding limits horizonS tail minFrac pod x = some f) :
    ∃ limit cur, limits.get? pod = some limit ∧ x.getLast? = some cur := by
  unfold incipientFinding at h
  split at h
  · rename_i limit cur hlimit hcur
    exact ⟨limit, cur, hlimit, hcur⟩
  · exact absurd h (by simp)

theorem incipientFinding_pod (h : incipientFinding limits horizonS tail minFrac pod x = some f) :
    f.pod = pod := by
  obtain ⟨limit, cur, hlimit, hcur⟩ := exists_of_incipientFinding h
  obtain ⟨-, -, eta, -, -, rfl⟩ := (incipientFinding_iff hlimit hcur).mp h
  rfl

/-- The warnings are those of the pods. -/
theorem mem_incipientFindings : f ∈ incipientFindings memVectors limits horizonS tail minFrac ↔
    ∃ x, memVectors.get? f.pod = some x ∧ incipientFinding limits horizonS tail minFrac f.pod x = some f := by
  unfold incipientFindings
  rw [mem_sortOn, List.mem_filterMap]
  constructor
  · rintro ⟨⟨pod, x⟩, hmem, hf⟩
    have hpod : f.pod = pod := incipientFinding_pod hf
    rw [hpod]
    exact ⟨x, Dict.get?_eq_some_iff.mpr hmem, hf⟩
  · rintro ⟨x, hmem, hf⟩
    exact ⟨(f.pod, x), Dict.get?_eq_some_iff.mp hmem, hf⟩

/-- The warning of a pod is the one its own samples give. -/
theorem mem_incipientFindings_of_get? (hx : memVectors.get? pod = some x) (hpod : f.pod = pod) :
    f ∈ incipientFindings memVectors limits horizonS tail minFrac ↔
      incipientFinding limits horizonS tail minFrac pod x = some f := by
  subst hpod
  rw [mem_incipientFindings]
  constructor
  · rintro ⟨x', hx', hf⟩
    obtain rfl := Option.some.inj (hx.symm.trans hx')
    exact hf
  · exact fun hf => ⟨x, hx, hf⟩

theorem incipientFindings_nodup :
    ((incipientFindings memVectors limits horizonS tail minFrac).map Incipient.pod).Nodup := by
  unfold incipientFindings
  rw [((sortOn_perm Incipient.etaS _).map Incipient.pod).nodup_iff]
  have hkeys : (memVectors.entries).Pairwise fun kv kv' => kv.1 ≠ kv'.1 := List.pairwise_map.mp memVectors.nodup
  rw [List.Nodup, List.pairwise_map, List.pairwise_filterMap]
  refine hkeys.imp ?_
  intro kv kv' hne f hf f' hf'
  rw [incipientFinding_pod hf, incipientFinding_pod hf']
  exact hne

theorem incipientFinding_projected (h : incipientFinding limits horizonS tail minFrac pod x = some f) :
    ∃ limit cur eta, Projected limits horizonS tail minFrac x f limit cur eta := by
  obtain ⟨limit, cur, hlimit, hcur⟩ := exists_of_incipientFinding h
  obtain ⟨hpos, hpast, eta, heta, hsoon, rfl⟩ := (incipientFinding_iff hlimit hcur).mp h
  obtain ⟨-, -, hunder, hnonneg, hcap⟩ := forecastToLimit_eq_some heta
  have hx : x ≠ [] := by
    rintro rfl
    exact absurd hcur (by simp)
  have hlast : (fitSegment x tail minFitN).getLastD 0 = cur := by
    rw [List.getLastD_eq_getLast?, getLast?_fitSegment tail (by decide) hx, hcur, Option.getD_some]
  rw [hlast] at hunder
  exact ⟨limit, cur, eta, hlimit, hpos, hcur, hpast, hunder, heta, hnonneg, le_min hsoon hcap, rfl, rfl, rfl⟩

/-! ### A straight climb -/

variable {a s limit : ℚ} {n : ℕ}

/-- The unrounded projection of a straight climb to a limit. -/
def climbEta (a s : ℚ) (n : ℕ) (limit : ℚ) : ℚ := (limit - (a + s * (n - 1 : ℕ))) / s * 5

/-- A line that does not climb is not projected. -/
theorem forecast_flat (hn : minFitN ≤ n) (hs : s ≤ 1 / 1000000000) :
    forecastToLimit (fitSegment (line a s n) tail minFitN) limit (fitSegment (line a s n) tail minFitN).length =
      none := by
  obtain ⟨m, a', hm, hseg, -⟩ := fitSegment_line (a := a) (s := s) tail hn (by decide)
  rw [hseg, length_line, forecastToLimit_line hm, if_pos hs]

/-- A line that climbs is projected exactly, whatever segment of it is fitted. -/
theorem forecast_climb {eta : ℚ} (hn : minFitN ≤ n) (hs : 1 / 1000000000 < s) :
    forecastToLimit (fitSegment (line a s n) tail minFitN) limit (fitSegment (line a s n) tail minFitN).length =
      some eta ↔ a + s * (n - 1 : ℕ) ≤ limit ∧ climbEta a s n limit ≤ 3600 ∧ eta = climbEta a s n limit := by
  obtain ⟨m, a', hm, hseg, hlast⟩ := fitSegment_line (a := a) (s := s) tail hn (by decide)
  rw [hseg, length_line, forecastToLimit_line hm, if_neg (not_le.mpr hs), hlast]
  unfold climbEta dtS
  dsimp only
  split
  · rename_i hout
    refine iff_of_false (by simp) ?_
    rintro ⟨hle, hcap, -⟩
    exact hout.elim (fun hlt => absurd hlt (not_lt.mpr hle)) fun hgt => absurd hgt (not_lt.mpr hcap)
  · rename_i hin
    obtain ⟨hle, hcap⟩ := not_or.mp hin
    rw [and_iff_right (not_lt.mp hle), and_iff_right (not_lt.mp hcap), Option.some.injEq, eq_comm]

/-- What the warnings of a pod on a straight line are. -/
structure LineWarned (memVectors : Dict Pod Series) (limits : Dict Pod ℚ) (horizonS : ℚ) (tail : ℕ) (minFrac : ℚ)
    (pod : Pod) (a s : ℚ) (n : ℕ) : Prop where
  flat : s ≤ 1 / 1000000000 →
    ∀ f ∈ incipientFindings memVectors limits horizonS tail minFrac, f.pod ≠ pod
  climb : 1 / 1000000000 < s →
    ((∃ f ∈ incipientFindings memVectors limits horizonS tail minFrac, f.pod = pod) ↔
      ∃ limit, limits.get? pod = some limit ∧ 0 < limit ∧ minFrac * limit ≤ a + s * (n - 1 : ℕ) ∧
        a + s * (n - 1 : ℕ) ≤ limit ∧ climbEta a s n limit ≤ min horizonS 3600)
  exact : 1 / 1000000000 < s →
    ∀ f ∈ incipientFindings memVectors limits horizonS tail minFrac, f.pod = pod → ∃ limit,
      limits.get? pod = some limit ∧ f.etaS = roundAt 1 (climbEta a s n limit) ∧
      forecastToLimit (fitSegment (line a s n) tail minFitN) limit (fitSegment (line a s n) tail minFitN).length =
        some (climbEta a s n limit)

theorem lineWarned (horizonS : ℚ) (tail : ℕ) (minFrac : ℚ) (hn : minFitN ≤ n)
    (hx : memVectors.get? pod = some (line a s n)) :
    LineWarned memVectors limits horizonS tail minFrac pod a s n := by
  have hcur : (line a s n).getLast? = some (a + s * (n - 1 : ℕ)) :=
    getLast?_line a s (lt_of_lt_of_le (by decide) hn)
  refine ⟨?_, ?_, ?_⟩
  · intro hs f hf hpod
    have hfind := (mem_incipientFindings_of_get? hx hpod).mp hf
    obtain ⟨limit, cur, hlimit, -⟩ := exists_of_incipientFinding hfind
    obtain ⟨-, -, eta, heta, -⟩ := (incipientFinding_iff hlimit hcur).mp hfind
    rw [forecast_flat hn hs] at heta
    exact absurd heta (by simp)
  · intro hs
    constructor
    · rintro ⟨f, hf, hpod⟩
      have hfind := (mem_incipientFindings_of_get? hx hpod).mp hf
      obtain ⟨limit, cur, hlimit, -⟩ := exists_of_incipientFinding hfind
      obtain ⟨hpos, hpast, eta, heta, hsoon, -⟩ := (incipientFinding_iff hlimit hcur).mp hfind
      obtain ⟨hunder, hcap, rfl⟩ := (forecast_climb hn hs).mp heta
      exact ⟨limit, hlimit, hpos, hpast, hunder, le_min hsoon hcap⟩
    · rintro ⟨limit, hlimit, hpos, hpast, hunder, hsoon⟩
      have heta : forecastToLimit (fitSegment (line a s n) tail minFitN) limit
          (fitSegment (line a s n) tail minFitN).length = some (climbEta a s n limit) :=
        (forecast_climb hn hs).mpr ⟨hunder, hsoon.trans (min_le_right _ _), rfl⟩
      have hfind : ∃ f, incipientFinding limits horizonS tail minFrac pod (line a s n) = some f :=
        ⟨_, (incipientFinding_iff hlimit hcur).mpr ⟨hpos, hpast, _, heta, hsoon.trans (min_le_left _ _), rfl⟩⟩
      obtain ⟨f, hf⟩ := hfind
      have hpod := incipientFinding_pod hf
      exact ⟨f, (mem_incipientFindings_of_get? hx hpod).mpr hf, hpod⟩
  · intro hs f hf hpod
    have hfind := (mem_incipientFindings_of_get? hx hpod).mp hf
    obtain ⟨limit, cur, hlimit, -⟩ := exists_of_incipientFinding hfind
    obtain ⟨-, -, eta, heta, -, rfl⟩ := (incipientFinding_iff hlimit hcur).mp hfind
    obtain ⟨-, -, rfl⟩ := (forecast_climb hn hs).mp heta
    exact ⟨limit, hlimit, rfl, heta⟩

/-- What the forecaster returns: one warning a pod, soonest first, each a projection of what is there; and for a
    pod on a straight line exactly the line's own. -/
structure Forecasts (memVectors : Dict Pod Series) (limits : Dict Pod ℚ) (horizonS : ℚ) (tail : ℕ) (minFrac : ℚ) :
    Prop where
  onePerPod : ((incipientFindings memVectors limits horizonS tail minFrac).map Incipient.pod).Nodup
  soonestFirst : (incipientFindings memVectors limits horizonS tail minFrac).Pairwise fun f f' => f.etaS ≤ f'.etaS
  sound : ∀ f ∈ incipientFindings memVectors limits horizonS tail minFrac, ∃ x limit cur eta,
    memVectors.get? f.pod = some x ∧ Projected limits horizonS tail minFrac x f limit cur eta
  line : ∀ pod a s n, 6 ≤ n → memVectors.get? pod = some (line a s n) →
    LineWarned memVectors limits horizonS tail minFrac pod a s n

/-- **The forecaster is sound, and exact on straight climbs.** -/
theorem incipient_exact (memVectors : Dict Pod Series) (limits : Dict Pod ℚ) (horizonS : ℚ) (tail : ℕ)
    (minFrac : ℚ) : Forecasts memVectors limits horizonS tail minFrac where
  onePerPod := incipientFindings_nodup
  soonestFirst := sortOn_pairwise Incipient.etaS _
  sound := by
    intro f hf
    obtain ⟨x, hx, hfind⟩ := mem_incipientFindings.mp hf
    obtain ⟨limit, cur, eta, hprojected⟩ := incipientFinding_projected hfind
    exact ⟨x, limit, cur, eta, hx, hprojected⟩
  line := fun _ _ _ _ hn hx => lineWarned horizonS tail minFrac hn hx

/-- A leak at 95 % of the limit, one unit a sample: the kill is 25 s ahead. -/
example : incipientFindings (.ofList [("vision-qc", line 60 1 36)]) (.ofList [("vision-qc", 100)]) defaultHorizonS
    defaultTail defaultMinFrac = [⟨"vision-qc", "mem", "incipient", .leak, 25, 95, 100, 1 / 20⟩] := by
  decide +kernel

end Warnings

end EdgeCausal
