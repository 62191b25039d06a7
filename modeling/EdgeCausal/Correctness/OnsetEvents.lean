import EdgeCausal.Correctness.Onsets

/-!
# `Correctness.OnsetEvents` — when onsets are events of their own

An onset should start after the warm-up, and the sample that raises its alarm should point its way. Two things
break this. A shift that is under way when the warm-up ends is walked back into it (`StartsInWarmup`). And the
accumulators keep growing while the loop is disarmed, so the first armed sample after an alarm can raise another
one that it does not share in (`RearmsAgainst`). There is no third way (`onsets_wellFormed_iff`).
-/

namespace EdgeCausal

open Lib

/-! ## The accumulator of a direction -/

section Accumulator
variable (p : CusumParams) (z : Series)

def CusumState.acc (s : CusumState) : Direction → ℚ
  | .up => s.gp
  | .down => s.gn

/-- The accumulator after a further sample. -/
def grown (d : Direction) (g : ℚ) (i : ℕ) : ℚ := max 0 (g + d.sign * z.getD i 0 - p.k)

variable {p z} {s : CusumState} {i j n : ℕ} {d d' : Direction} {a b : Alarm}

theorem grown_up (g : ℚ) (i : ℕ) : grown p z .up g i = max 0 (g + z.getD i 0 - p.k) := by
  simp [grown, Direction.sign]

theorem grown_down (g : ℚ) (i : ℕ) : grown p z .down g i = max 0 (g - z.getD i 0 - p.k) := by
  simp [grown, Direction.sign, sub_eq_add_neg]

theorem raises_eq : raises p z s i =
    if p.h < grown p z .up (s.acc .up) i ∧ s.armedAt ≤ i then some .up
    else if p.h < grown p z .down (s.acc .down) i ∧ s.armedAt ≤ i then some .down
    else none := by
  rw [grown_up, grown_down]
  rfl

/-- An alarm is raised by the accumulator of its direction. -/
theorem lt_grown_of_raises (h : raises p z s i = some d) : p.h < grown p z d (s.acc d) i := by
  rw [raises_eq] at h
  split at h
  · rename_i hup
    obtain rfl := Option.some.inj h
    exact hup.1
  · split at h
    · rename_i hdown
      obtain rfl := Option.some.inj h
      exact hdown.1
    · exact absurd h (by simp)

/-- Without an alarm each accumulator grows by its rule. -/
theorem acc_quiet (h : raises p z s i = none) (d : Direction) :
    (cusumStep p z s i).acc d = grown p z d (s.acc d) i := by
  rw [cusumStep_quiet h]
  cases d with
  | up => rw [grown_up]; rfl
  | down => rw [grown_down]; rfl

theorem acc_raised (h : raises p z s i = some d) (d' : Direction) : (cusumStep p z s i).acc d' = 0 := by
  rw [cusumStep_raised h]
  cases d' <;> rfl

theorem armedAt_quiet (h : raises p z s i = none) : (cusumStep p z s i).armedAt = s.armedAt := by
  rw [cusumStep_quiet h]

/-- The only accumulator over the threshold raises the alarm. -/
theorem raises_of_lt (harmed : s.armedAt ≤ i) (hlt : p.h < grown p z d (s.acc d) i)
    (hother : ∀ d', d' ≠ d → grown p z d' (s.acc d') i ≤ p.h) : raises p z s i = some d := by
  rw [raises_eq]
  cases d with
  | up => rw [if_pos ⟨hlt, harmed⟩]
  | down =>
      have hup := hother .up (by decide)
      rw [if_neg fun h => absurd h.1 (not_lt.mpr hup), if_pos ⟨hlt, harmed⟩]

theorem raises_of_le (hle : ∀ d, grown p z d (s.acc d) i ≤ p.h) : raises p z s i = none := by
  rw [raises_eq, if_neg fun h => absurd h.1 (not_lt.mpr (hle .up)),
    if_neg fun h => absurd h.1 (not_lt.mpr (hle .down))]

theorem raises_of_disarmed (h : i < s.armedAt) : raises p z s i = none := by
  rw [raises_eq, if_neg fun hup => absurd hup.2 (not_le.mpr h),
    if_neg fun hdown => absurd hdown.2 (not_le.mpr h)]

theorem grown_of_against (hk : 0 ≤ p.k) (h : d.sign * z.getD i 0 ≤ 0) : grown p z d 0 i = 0 := by
  unfold grown
  apply max_eq_left
  linarith

/-- A sample that takes an accumulator over the threshold points its way. -/
theorem pos_of_lt_grown {g : ℚ} (hk : 0 ≤ p.k) (hh : 0 < p.h) (hg : g ≤ p.h) (h : p.h < grown p z d g i) :
    0 < d.sign * z.getD i 0 := by
  unfold grown at h
  rcases lt_max_iff.mp h with hneg | hlt
  · linarith
  · linarith

theorem sign_opposite (hne : d' ≠ d) (v : ℚ) : d'.sign * v = -(d.sign * v) := by
  cases d <;> cases d' <;> simp [Direction.sign] at hne ⊢

/-! ## The first shift -/

variable (p z) in
/-- The one-sided sum from the end of the warm-up up to sample `i`, never reset. -/
def drift (d : Direction) (i : ℕ) : ℚ :=
  (List.range' p.warmup (i + 1 - p.warmup)).foldl (grown p z d) 0

variable (p z) in
/-- A shift that the warm-up ends in is still under way when its sum passes the threshold. -/
def StartsInWarmup (n : ℕ) (d : Direction) : Prop :=
  ∃ i, p.warmup ≤ i ∧ i < n ∧ (∀ j, p.warmup - 1 ≤ j → j < i → Deviates z d j) ∧ p.h < drift p z d i

theorem drift_succ (h : p.warmup ≤ i + 1) : drift p z d (i + 1) = grown p z d (drift p z d i) (i + 1) := by
  unfold drift
  rw [Nat.succ_sub h, List.range'_concat, List.foldl_append, Nat.one_mul, Nat.add_sub_cancel' h]
  rfl

theorem drift_warmup : drift p z d p.warmup = grown p z d 0 p.warmup := by
  unfold drift
  rw [Nat.add_sub_cancel_left]
  rfl

/-- While the first shift lasts and its sum stays low, the loop has raised nothing. -/
structure Shifting (p : CusumParams) (z : Series) (d : Direction) (i : ℕ) : Prop where
  armed : (cusumAt p z i).armedAt = p.warmup
  along : grown p z d ((cusumAt p z i).acc d) i = drift p z d i
  low : (cusumAt p z i).acc d ≤ p.h
  against : ∀ d', d' ≠ d → (cusumAt p z i).acc d' = 0

theorem shifting_warmup (hh : 0 < p.h) : Shifting p z d p.warmup := by
  have hacc : ∀ d', (cusumAt p z p.warmup).acc d' = 0 := by
    intro d'
    rw [cusumAt_of_le le_rfl]
    cases d' <;> rfl
  refine ⟨?_, ?_, ?_, fun d' _ => hacc d'⟩
  · rw [cusumAt_of_le le_rfl]
  · rw [hacc, drift_warmup]
  · rw [hacc]
    exact hh.le

/-- One more sample of the shift, with its sum still low, raises nothing. -/
theorem Shifting.succ (h : Shifting p z d i) (hk : 0 ≤ p.k) (hh : 0 < p.h) (hi : p.warmup ≤ i)
    (hdev : Deviates z d i) (hlow : drift p z d i ≤ p.h) : Shifting p z d (i + 1) := by
  have hpos : 1 / 2 < d.sign * z.getD i 0 := hdev
  have hzero : ∀ d', d' ≠ d → grown p z d' ((cusumAt p z i).acc d') i = 0 := by
    intro d' hne
    rw [h.against d' hne]
    apply grown_of_against hk
    rw [sign_opposite hne]
    linarith
  have hquiet : raises p z (cusumAt p z i) i = none := by
    apply raises_of_le
    intro d'
    by_cases hd : d' = d
    · rw [hd, h.along]
      exact hlow
    · rw [hzero d' hd]
      exact hh.le
  refine ⟨?_, ?_, ?_, ?_⟩
  · rw [cusumAt_succ hi, armedAt_quiet hquiet, h.armed]
  · rw [cusumAt_succ hi, acc_quiet hquiet, h.along, drift_succ (hi.trans i.le_succ)]
  · rw [cusumAt_succ hi, acc_quiet hquiet, h.along]
    exact hlow
  · intro d' hne
    rw [cusumAt_succ hi, acc_quiet hquiet, hzero d' hne]

theorem shifting (hk : 0 ≤ p.k) (hh : 0 < p.h) (hi : p.warmup ≤ i)
    (hrun : ∀ j, p.warmup ≤ j → j < i → Deviates z d j)
    (hlow : ∀ j, p.warmup ≤ j → j < i → drift p z d j ≤ p.h) : Shifting p z d i := by
  induction i, hi using Nat.le_induction with
  | base => exact shifting_warmup hh
  | succ i hi ih =>
      have hprev : Shifting p z d i := ih (fun j hj hji => hrun j hj (hji.trans i.lt_succ_self))
        fun j hj hji => hlow j hj (hji.trans i.lt_succ_self)
      exact hprev.succ hk hh hi (hrun i hi i.lt_succ_self) (hlow i hi i.lt_succ_self)

/-- An alarm is dated before the end of the warm-up when everything since then deviates its way. -/
theorem onset_early_iff (hw : 1 ≤ p.warmup) {a : Alarm} (ha : p.warmup ≤ a.pos) :
    (a.onset z).idx < p.warmup ↔ ∀ j, p.warmup - 1 ≤ j → j < a.pos → Deviates z a.direction j := by
  have hidx : (a.onset z).idx = runStart (Deviates z a.direction) a.pos := backtrack_eq_runStart z _ _
  rw [← runStart_le_iff (by omega), hidx]
  omega

/-- An alarm dated that early belongs to a shift that starts there. -/
theorem startsInWarmup_of_early {a : Alarm} (hk : 0 ≤ p.k) (hh : 0 < p.h) (ha : a ∈ alarms p z n)
    (hearly : ∀ j, p.warmup - 1 ≤ j → j < a.pos → Deviates z a.direction j) :
    StartsInWarmup p z n a.direction := by
  obtain ⟨hwarm, hlt, hraised⟩ := mem_alarms.mp ha
  by_cases hpassed : ∃ j, p.warmup ≤ j ∧ j < a.pos ∧ p.h < drift p z a.direction j
  · obtain ⟨j, hj, hja, hpass⟩ := hpassed
    exact ⟨j, hj, hja.trans hlt, fun t ht htj => hearly t ht (htj.trans hja), hpass⟩
  · -- nothing raised before: the alarm is the first one
    have hshift := shifting hk hh hwarm (fun j hj hja => hearly j (by omega) hja)
      fun j hj hja => not_lt.mp fun hpass => hpassed ⟨j, hj, hja, hpass⟩
    exact ⟨a.pos, hwarm, hlt, hearly, hshift.along ▸ lt_grown_of_raises hraised⟩

/-- A shift that starts there raises an alarm, the first time its sum passes the threshold. -/
theorem StartsInWarmup.alarm (hk : 0 ≤ p.k) (hh : 0 < p.h) (hstart : StartsInWarmup p z n d) :
    ∃ i, p.warmup ≤ i ∧ i < n ∧ (∀ j, p.warmup - 1 ≤ j → j < i → Deviates z d j) ∧ alarmAt p z i = some d := by
  classical
  obtain ⟨hwarm, hlt, hdev, hpass⟩ := Nat.find_spec hstart
  set i := Nat.find hstart
  have hlow : ∀ j, p.warmup ≤ j → j < i → drift p z d j ≤ p.h := by
    intro j hj hji
    by_contra hpass'
    exact Nat.find_min hstart hji
      ⟨hj, hji.trans hlt, fun t ht htj => hdev t ht (htj.trans hji), not_le.mp hpass'⟩
  have hshift := shifting hk hh hwarm (fun j hj hji => hdev j (by omega) hji) hlow
  have hpos := pos_of_lt_grown hk hh hshift.low (hshift.along.symm ▸ hpass)
  refine ⟨i, hwarm, hlt, hdev, ?_⟩
  apply raises_of_lt (hshift.armed.trans_le hwarm) (hshift.along.symm ▸ hpass)
  intro d' hne
  rw [hshift.against d' hne, grown_of_against hk]
  · exact hh.le
  · rw [sign_opposite hne]
    linarith

/-- **An onset falls into the warm-up exactly when a shift starts there.** -/
theorem exists_early_iff (hk : 0 ≤ p.k) (hh : 0 < p.h) (hw : 1 ≤ p.warmup) :
    (∃ a ∈ alarms p z n, (a.onset z).idx < p.warmup) ↔ ∃ d, StartsInWarmup p z n d := by
  constructor
  · rintro ⟨a, ha, hearly⟩
    have hdev := (onset_early_iff hw (mem_alarms.mp ha).1).mp hearly
    exact ⟨a.direction, startsInWarmup_of_early hk hh ha hdev⟩
  · rintro ⟨d, hstart⟩
    obtain ⟨i, hwarm, hlt, hdev, hraised⟩ := hstart.alarm hk hh
    exact ⟨⟨i, d⟩, mem_alarms.mpr ⟨hwarm, hlt, hraised⟩, (onset_early_iff (a := ⟨i, d⟩) hw hwarm).mpr hdev⟩

/-! ## After an alarm -/

variable (p z) in
/-- The sum a direction reaches over the three samples after a reset. -/
def pauseSum (d : Direction) (i : ℕ) : ℚ :=
  grown p z d (grown p z d (grown p z d 0 (i + 1)) (i + 2)) (i + 3)

variable (p z) in
/-- The first armed sample after the alarm at `i` raises another one, and does not point its way. -/
def RearmsAgainst (i : ℕ) : Prop :=
  (p.h < pauseSum p z .up i ∧ z.getD (i + 3) 0 ≤ 0) ∨
    (pauseSum p z .up i ≤ p.h ∧ p.h < pauseSum p z .down i ∧ 0 ≤ z.getD (i + 3) 0)

/-- After an alarm the loop accumulates two samples without being armed. -/
theorem cusumAt_rearmed (hi : p.warmup ≤ i) (h : alarmAt p z i = some d) :
    (cusumAt p z (i + 3)).armedAt = i + 3 ∧
      ∀ d', (cusumAt p z (i + 3)).acc d' = grown p z d' (grown p z d' 0 (i + 1)) (i + 2) := by
  have h1 : (cusumAt p z (i + 1)).armedAt = i + 3 ∧ ∀ d', (cusumAt p z (i + 1)).acc d' = 0 := by
    rw [cusumAt_succ hi]
    refine ⟨?_, acc_raised h⟩
    rw [cusumStep_raised h]
  have hq1 := raises_of_disarmed (p := p) (z := z) (i := i + 1) (s := cusumAt p z (i + 1)) (by omega)
  have h2 : (cusumAt p z (i + 2)).armedAt = i + 3 ∧
      ∀ d', (cusumAt p z (i + 2)).acc d' = grown p z d' 0 (i + 1) := by
    rw [cusumAt_succ (hi.trans (by omega))]
    refine ⟨(armedAt_quiet hq1).trans h1.1, fun d' => ?_⟩
    rw [acc_quiet hq1, h1.2]
  have hq2 := raises_of_disarmed (p := p) (z := z) (i := i + 2) (s := cusumAt p z (i + 2)) (by omega)
  rw [cusumAt_succ (hi.trans (by omega))]
  refine ⟨(armedAt_quiet hq2).trans h2.1, fun d' => ?_⟩
  rw [acc_quiet hq2, h2.2]

/-- The alarm three samples after an alarm is a matter of these samples. -/
theorem alarmAt_rearmed (hi : p.warmup ≤ i) (h : alarmAt p z i = some d) : alarmAt p z (i + 3) =
    if p.h < pauseSum p z .up i then some .up else if p.h < pauseSum p z .down i then some .down else none := by
  obtain ⟨harmed, hacc⟩ := cusumAt_rearmed hi h
  unfold alarmAt pauseSum
  rw [raises_eq, hacc, hacc, harmed]
  simp only [le_refl, and_true]

/-- The loop is armed from the end of the warm-up, or from the third sample after some alarm. -/
theorem armedAt_cases (hi : p.warmup ≤ i) : (cusumAt p z i).armedAt = p.warmup ∨
    ∃ m d, p.warmup ≤ m ∧ m < i ∧ alarmAt p z m = some d ∧ (cusumAt p z i).armedAt = m + 3 := by
  induction i, hi using Nat.le_induction with
  | base =>
      left
      rw [cusumAt_of_le le_rfl]
  | succ i hi ih =>
      rw [cusumAt_succ hi]
      cases hraise : raises p z (cusumAt p z i) i with
      | some d =>
          right
          refine ⟨i, d, hi, i.lt_succ_self, hraise, ?_⟩
          rw [cusumStep_raised hraise]
      | none =>
          rw [armedAt_quiet hraise]
          rcases ih with heq | ⟨m, d, hm, hmi, halarm, heq⟩
          · exact Or.inl heq
          · exact Or.inr ⟨m, d, hm, hmi.trans i.lt_succ_self, halarm, heq⟩

/-- Before a sample both accumulators are low, or the loop was reset by one of the last three samples. -/
theorem calm_or_paused (hh : 0 < p.h) (hi : p.warmup ≤ i) : (∀ d, (cusumAt p z i).acc d ≤ p.h) ∨
    ∃ m d, p.warmup ≤ m ∧ alarmAt p z m = some d ∧ i ≤ m + 3 ∧ m < i := by
  rcases hi.eq_or_lt with rfl | hlt
  · left
    rw [cusumAt_of_le le_rfl]
    intro d
    cases d <;> exact hh.le
  · obtain ⟨t, rfl⟩ : ∃ t, i = t + 1 := ⟨i - 1, by omega⟩
    have ht : p.warmup ≤ t := by omega
    rw [cusumAt_succ ht]
    cases hraise : raises p z (cusumAt p z t) t with
    | some d =>
        left
        intro d'
        rw [acc_raised hraise]
        exact hh.le
    | none =>
        rcases le_or_gt (cusumAt p z t).armedAt t with harmed | hdisarmed
        · left
          obtain ⟨hgp, hgn⟩ := le_of_quiet hraise harmed
          intro d
          cases d
          · exact hgp
          · exact hgn
        · rcases armedAt_cases (z := z) ht with heq | ⟨m, d, hm, hmt, halarm, heq⟩
          · omega
          · exact Or.inr ⟨m, d, hm, halarm, by omega, by omega⟩

/-- What is raised against its sample three samples after an alarm. -/
theorem rearmsAgainst_iff (hi : p.warmup ≤ i) (h : alarmAt p z i = some d) :
    RearmsAgainst p z i ↔ ∃ d', alarmAt p z (i + 3) = some d' ∧ d'.sign * z.getD (i + 3) 0 ≤ 0 := by
  rw [alarmAt_rearmed hi h]
  unfold RearmsAgainst
  by_cases hup : p.h < pauseSum p z .up i
  · simp [hup, Direction.sign]
  · by_cases hdown : p.h < pauseSum p z .down i
    · simp [hup, hdown, Direction.sign, not_lt.mp hup]
    · simp [hup, hdown]

/-- **Every alarm's sample points its way, unless a pause raises one against it.** -/
theorem alarms_signed_iff (hk : 0 ≤ p.k) (hh : 0 < p.h) :
    (∀ a ∈ alarms p z n, 0 < a.direction.sign * z.getD a.pos 0) ↔
      ¬ ∃ i d, p.warmup ≤ i ∧ i + 3 < n ∧ alarmAt p z i = some d ∧ RearmsAgainst p z i := by
  constructor
  · rintro hall ⟨i, d, hi, hn, halarm, hagainst⟩
    obtain ⟨d', hnext, hneg⟩ := (rearmsAgainst_iff hi halarm).mp hagainst
    have hpos := hall ⟨i + 3, d'⟩ (mem_alarms.mpr ⟨hi.trans (by simp), hn, hnext⟩)
    exact absurd hpos (not_lt.mpr hneg)
  · intro hnone a ha
    obtain ⟨hwarm, hlt, hraised⟩ := mem_alarms.mp ha
    rcases calm_or_paused (z := z) hh hwarm with hcalm | ⟨m, d, hm, halarm, hle, hma⟩
    · exact pos_of_lt_grown hk hh (hcalm _) (lt_grown_of_raises hraised)
    · -- the loop is armed again no earlier than three samples after the alarm
      have hpos : a.pos = m + 3 := le_antisymm hle (add_three_le_of_alarms hm halarm hraised hma)
      rw [hpos] at hlt hraised ⊢
      by_contra hagainst
      exact hnone ⟨m, d, hm, hlt, halarm, (rearmsAgainst_iff hm halarm).mpr ⟨_, hraised, not_lt.mp hagainst⟩⟩

/-- Onsets whose samples point their way never go back. -/
theorem onsets_ordered_of_signed (hsigned : ∀ a ∈ alarms p z n, 0 < a.direction.sign * z.getD a.pos 0) :
    (alarms p z n).Pairwise fun a b => (a.onset z).idx ≤ (b.onset z).idx := by
  refine (alarms_spaced n).imp_of_mem ?_
  intro a b ha _ hab
  by_cases hdir : a.direction = b.direction
  · exact onset_idx_mono hdir (by omega)
  · unfold Alarm.onset
    rw [backtrack_eq_runStart, backtrack_eq_runStart]
    refine runStart_le_of_exclusive (fun t ht => ht.not_opposite hdir) (by omega) ?_
    -- the earlier alarm's own sample does not deviate the later one's way
    have hpos := hsigned a ha
    show ¬ 1 / 2 < b.direction.sign * z.getD a.pos 0
    rw [sign_opposite (Ne.symm hdir)]
    linarith

end Accumulator

/-! ## The onsets of a series -/

section Series
variable {p : CusumParams} {x : Series}

/-- The onsets are events: after the warm-up, in order, each with a sample that points its way. -/
structure WellFormedOnsets (p : CusumParams) (x : Series) : Prop where
  inside : ∀ o ∈ cusumOnsetsWith p x, p.warmup ≤ o.idx ∧ o.idx < x.length
  ordered : (cusumOnsetsWith p x).Pairwise fun o o' => o.idx ≤ o'.idx
  signed : ∀ o ∈ cusumOnsetsWith p x,
    (o.direction = .up ↔ 0 < o.zpeak) ∧ (o.direction = .down ↔ o.zpeak < 0)

/-- The series is too short to be looked at, or no shift starts in its warm-up and no pause raises an alarm
    against its sample. -/
def CleanShifts (p : CusumParams) (x : Series) : Prop :=
  x.length < p.warmup + 4 ∨
    (∀ d, ¬ StartsInWarmup p (residualZ p x) x.length d) ∧
      ¬ ∃ i d, p.warmup ≤ i ∧ i + 3 < x.length ∧ alarmAt p (residualZ p x) i = some d ∧
        RearmsAgainst p (residualZ p x) i

theorem signed_iff (d : Direction) (v : ℚ) :
    ((d = .up ↔ 0 < v) ∧ (d = .down ↔ v < 0)) ↔ 0 < d.sign * v := by
  cases d with
  | up =>
      simp only [Direction.sign, one_mul, true_iff, reduceCtorEq, false_iff, not_lt]
      exact and_iff_left_of_imp le_of_lt
  | down =>
      simp only [Direction.sign, neg_one_mul, Left.neg_pos_iff, true_iff, reduceCtorEq, false_iff, not_lt]
      exact and_iff_right_of_imp le_of_lt

/-- **The onsets are events exactly when the shifts are clean.** -/
theorem onsets_wellFormed_iff (hk : 0 ≤ p.k) (hh : 0 < p.h) (hw : 1 ≤ p.warmup) (x : Series) :
    WellFormedOnsets p x ↔ CleanShifts p x := by
  rcases lt_or_ge x.length (p.warmup + 4) with hshort | hlong
  · have hnil : cusumOnsetsWith p x = [] := if_pos hshort
    refine iff_of_true ⟨?_, ?_, ?_⟩ (Or.inl hshort) <;> rw [hnil] <;> simp
  · set z := residualZ p x
    have honsets : cusumOnsetsWith p x = (alarms p z x.length).map (Alarm.onset z) := by
      rw [cusumOnsets_eq_alarms, seriesAlarms, if_neg (not_lt.mpr hlong)]
    have hearly : (∀ a ∈ alarms p z x.length, p.warmup ≤ (a.onset z).idx) ↔
        ∀ d, ¬ StartsInWarmup p z x.length d := by
      rw [← not_exists, ← exists_early_iff hk hh hw]
      simp only [not_exists, not_and, not_lt]
    unfold CleanShifts
    rw [or_iff_right (not_lt.mpr hlong), ← hearly, ← alarms_signed_iff hk hh]
    constructor
    · intro h
      have hmem : ∀ a ∈ alarms p z x.length, a.onset z ∈ cusumOnsetsWith p x := by
        intro a ha
        rw [honsets]
        exact List.mem_map_of_mem ha
      exact ⟨fun a ha => (h.inside _ (hmem a ha)).1, fun a ha => (signed_iff _ _).mp (h.signed _ (hmem a ha))⟩
    · rintro ⟨hinside, hsigned⟩
      refine ⟨?_, ?_, ?_⟩
      · intro o ho
        rw [honsets] at ho
        obtain ⟨a, ha, rfl⟩ := List.mem_map.mp ho
        exact ⟨hinside a ha, (onset_idx_le a).trans_lt (mem_alarms.mp ha).2.1⟩
      · rw [honsets, List.pairwise_map]
        exact onsets_ordered_of_signed hsigned
      · intro o ho
        rw [honsets] at ho
        obtain ⟨a, ha, rfl⟩ := List.mem_map.mp ho
        exact (signed_iff _ _).mpr (hsigned a ha)

/-! ### A step at the end of the warm-up, and a burst that is over when the loop is armed again -/

def stepAtWarmup : Series := List.replicate 11 0 ++ List.replicate 5 10

def burstInPause : Series := List.replicate 12 0 ++ [10, 20, 20, 0]

/-- A step in the middle of the samples. -/
def cleanStep : Series := List.replicate 14 0 ++ List.replicate 6 10

theorem onsets_wellFormed_iff_step : WellFormedOnsets cusumDefaults cleanStep := by
  refine (onsets_wellFormed_iff (by decide +kernel) (by decide +kernel) (by decide) cleanStep).mpr
    (Or.inr ⟨?_, ?_⟩)
  · rintro d ⟨i, hi, -, hdev, -⟩
    have hlast := hdev 11 (by decide) hi
    revert hlast
    cases d <;> decide +kernel
  · rintro ⟨i, d, hi, hn, -, hagainst⟩
    have hnone : ∀ i ∈ List.range' 12 5, ¬ (0 ≤ (residualZ cusumDefaults cleanStep).getD (i + 3) 0 ∧
        cusumDefaults.h < pauseSum cusumDefaults (residualZ cusumDefaults cleanStep) .down i) ∧
        ¬ ((residualZ cusumDefaults cleanStep).getD (i + 3) 0 ≤ 0 ∧
        cusumDefaults.h < pauseSum cusumDefaults (residualZ cusumDefaults cleanStep) .up i) := by decide +kernel
    have hi' : i ∈ List.range' 12 5 := List.mem_range'_1.mpr ⟨hi, Nat.lt_of_add_lt_add_right hn⟩
    obtain ⟨hdown, hup⟩ := hnone i hi'
    exact hagainst.elim (fun h => hup ⟨h.2, h.1⟩) fun h => hdown ⟨h.2.2, h.2.1⟩

/-- The step's onset falls on the last sample of the warm-up; the burst's second one points up over a fall. -/
theorem warmup_flagged : ¬ WellFormedOnsets cusumDefaults stepAtWarmup ∧
    ¬ WellFormedOnsets cusumDefaults burstInPause := by
  have hstep : ∃ o ∈ cusumOnsetsWith cusumDefaults stepAtWarmup, o.idx < cusumDefaults.warmup := by
    decide +kernel
  have hburst : ∃ o ∈ cusumOnsetsWith cusumDefaults burstInPause, o.direction = .up ∧ o.zpeak ≤ 0 := by
    decide +kernel
  obtain ⟨o, ho, hidx⟩ := hstep
  obtain ⟨o', ho', hup, hz⟩ := hburst
  exact ⟨fun h => absurd (h.inside o ho).1 (not_le.mpr hidx),
    fun h => absurd ((h.signed o' ho').1.mp hup) (not_lt.mpr hz)⟩

end Series

end EdgeCausal
