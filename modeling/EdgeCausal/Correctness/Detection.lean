import EdgeCausal.Correctness.OnsetEvents
import EdgeCausal.Temporal.Cusum

/-!
# `Correctness.Detection` — what the detector finds and what it misses

Since its last reset an accumulator is the cumulative sum of the residuals beyond the allowance `k`
(`acc_eq_cusum`). So an armed sample raises an alarm exactly when, in one of the directions, a stretch ending
there exceeds `h` (`alarmAt_iff`), and the alarms are known from the residuals alone: there is none when no stretch
after the warm-up exceeds `h`, each is justified by such a stretch since the alarm before it, and a stretch of
three samples or more that exceeds `h` never passes without one.
-/

namespace EdgeCausal

open Lib

section Detection
variable (p : CusumParams) (z : Series)

/-- What a sample adds in a direction: its residual beyond the allowance. -/
def beyond (d : Direction) (j : ℕ) : ℚ := d.sign * z.getD j 0 - p.k

/-- The residuals of a stretch, beyond the allowance. -/
def excess (d : Direction) (s e : ℕ) : ℚ := stretch (beyond p z d) s e

/-- The loop restarts before sample `s`: with the warm-up over, or with an alarm raised just before. -/
def RestartsAt (s : ℕ) : Prop :=
  s = p.warmup ∨ ∃ m d, p.warmup ≤ m ∧ alarmAt p z m = some d ∧ s = m + 1

/-- The first armed sample after a restart. -/
def armedFrom (s : ℕ) : ℕ := if s = p.warmup then p.warmup else s + 2

variable {p z} {s i e : ℕ} {d : Direction}

theorem grown_eq_beyond (g : ℚ) (i : ℕ) : grown p z d g i = max 0 (g + beyond p z d i) := by
  unfold grown beyond
  rw [add_sub_assoc]

theorem RestartsAt.warmup_le (h : RestartsAt p z s) : p.warmup ≤ s := by
  rcases h with rfl | ⟨m, d, hm, -, rfl⟩
  · exact le_rfl
  · exact hm.trans m.le_succ

/-- The state at a restart. -/
theorem RestartsAt.state (h : RestartsAt p z s) :
    (∀ d, (cusumAt p z s).acc d = 0) ∧ (cusumAt p z s).armedAt = armedFrom p s := by
  unfold armedFrom
  rcases h with rfl | ⟨m, d, hm, halarm, rfl⟩
  · rw [if_pos rfl, cusumAt_of_le le_rfl]
    refine ⟨fun d => ?_, rfl⟩
    cases d <;> rfl
  · have hne : m + 1 ≠ p.warmup := by omega
    rw [if_neg hne, cusumAt_succ hm]
    refine ⟨acc_raised halarm, ?_⟩
    rw [cusumStep_raised halarm]

/-- **Until the next alarm an accumulator is a cumulative sum**, and the loop stays armed from the same sample
    on. -/
theorem acc_eq_cusum (h : RestartsAt p z s) (hsi : s ≤ i) (hquiet : ∀ j, s ≤ j → j < i → alarmAt p z j = none) :
    (∀ d, (cusumAt p z i).acc d = cusum (beyond p z d) s (i - s)) ∧
      (cusumAt p z i).armedAt = armedFrom p s := by
  induction i, hsi using Nat.le_induction with
  | base =>
      rw [Nat.sub_self]
      exact h.state
  | succ i hsi ih =>
      obtain ⟨hacc, harmed⟩ := ih fun j hsj hji => hquiet j hsj (hji.trans i.lt_succ_self)
      have hnone : raises p z (cusumAt p z i) i = none := hquiet i hsi i.lt_succ_self
      rw [cusumAt_succ (h.warmup_le.trans hsi)]
      refine ⟨fun d => ?_, (armedAt_quiet hnone).trans harmed⟩
      rw [acc_quiet hnone, grown_eq_beyond, hacc, Nat.succ_sub hsi]
      show _ = max 0 (cusum (beyond p z d) s (i - s) + beyond p z d (s + (i - s)))
      rw [Nat.add_sub_cancel' hsi]

/-- What an accumulator grows to, seen from the last restart. -/
theorem lt_grown_iff (hh : 0 ≤ p.h) (h : RestartsAt p z s) (hsi : s ≤ i)
    (hquiet : ∀ j, s ≤ j → j < i → alarmAt p z j = none) :
    p.h < grown p z d ((cusumAt p z i).acc d) i ↔ ∃ t, s ≤ t ∧ t ≤ i ∧ p.h < excess p z d t (i + 1) := by
  have hgrown : grown p z d ((cusumAt p z i).acc d) i = cusum (beyond p z d) s (i - s + 1) := by
    rw [grown_eq_beyond, (acc_eq_cusum h hsi hquiet).1]
    show _ = max 0 (cusum (beyond p z d) s (i - s) + beyond p z d (s + (i - s)))
    rw [Nat.add_sub_cancel' hsi]
  have hend : s + (i - s + 1) = i + 1 := by omega
  rw [hgrown, lt_cusum_iff hh, hend]
  simp only [Nat.lt_succ_iff]
  rfl

/-- **An armed sample raises an alarm exactly when a stretch ending there exceeds the threshold.** -/
theorem alarmAt_iff (hh : 0 ≤ p.h) (h : RestartsAt p z s) (hsi : s ≤ i)
    (hquiet : ∀ j, s ≤ j → j < i → alarmAt p z j = none) :
    alarmAt p z i ≠ none ↔
      armedFrom p s ≤ i ∧ ∃ d t, s ≤ t ∧ t ≤ i ∧ p.h < excess p z d t (i + 1) := by
  have harmed := (acc_eq_cusum h hsi hquiet).2
  have hstretch : (∃ d t, s ≤ t ∧ t ≤ i ∧ p.h < excess p z d t (i + 1))
      ↔ ∃ d, p.h < grown p z d ((cusumAt p z i).acc d) i :=
    exists_congr fun d => (lt_grown_iff hh h hsi hquiet).symm
  rw [hstretch, ← harmed]
  constructor
  · intro hne
    obtain ⟨d, hd⟩ := Option.ne_none_iff_exists'.mp hne
    exact ⟨armedAt_le_of_raises hd, d, lt_grown_of_raises hd⟩
  · rintro ⟨hle, d, hlt⟩ hnone
    unfold alarmAt at hnone
    rw [raises_eq] at hnone
    split at hnone
    · exact absurd hnone (by simp)
    · rename_i hup
      split at hnone
      · exact absurd hnone (by simp)
      · rename_i hdown
        cases d with
        | up => exact hup ⟨hlt, hle⟩
        | down => exact hdown ⟨hlt, hle⟩

/-- Before any sample there is a last restart. -/
theorem exists_restart (hi : p.warmup ≤ i) :
    ∃ s, RestartsAt p z s ∧ s ≤ i ∧ ∀ j, s ≤ j → j < i → alarmAt p z j = none := by
  induction i, hi using Nat.le_induction with
  | base => exact ⟨p.warmup, Or.inl rfl, le_rfl, fun j hj hji => absurd hji (not_lt.mpr hj)⟩
  | succ i hi ih =>
      cases halarm : alarmAt p z i with
      | some d =>
          refine ⟨i + 1, Or.inr ⟨i, d, hi, halarm, rfl⟩, le_rfl, ?_⟩
          intro j hj hji
          exact absurd hji (not_lt.mpr hj)
      | none =>
          obtain ⟨s, hs, hsi, hquiet⟩ := ih
          refine ⟨s, hs, hsi.trans i.le_succ, ?_⟩
          intro j hsj hji
          rcases Nat.lt_succ_iff_lt_or_eq.mp hji with hji | rfl
          · exact hquiet j hsj hji
          · exact halarm

/-- **No drift passes unnoticed**: three samples or more that exceed the threshold together contain an alarm. -/
theorem exists_alarm_of_excess (hh : 0 ≤ p.h) (hs : p.warmup ≤ s) (hlen : s + 3 ≤ e)
    (hlt : p.h < excess p z d s e) : ∃ i, s ≤ i ∧ i < e ∧ alarmAt p z i ≠ none := by
  by_contra hno
  push Not at hno
  obtain ⟨i, rfl⟩ : ∃ i, e = i + 1 := ⟨e - 1, by omega⟩
  obtain ⟨s', hrestart, hle, hquiet⟩ := exists_restart (z := z) hs
  -- nothing is raised in the stretch, so the restart before it is the last one
  have hquiet' : ∀ j, s' ≤ j → j < i → alarmAt p z j = none := by
    intro j hj hji
    rcases lt_or_ge j s with hjs | hsj
    · exact hquiet j hj hjs
    · exact hno j hsj (hji.trans i.lt_succ_self)
  have harmed : armedFrom p s' ≤ i := by
    unfold armedFrom
    split <;> omega
  exact (alarmAt_iff hh hrestart (by omega) hquiet').mpr ⟨harmed, d, s, hle, by omega, hlt⟩
    (hno i (by omega) i.lt_succ_self)

/-- **No alarm without a drift**, in its own direction and since the alarm before it. -/
theorem excess_of_alarm (hh : 0 ≤ p.h) (hi : p.warmup ≤ i) (halarm : alarmAt p z i = some d) :
    ∃ t, p.warmup ≤ t ∧ t ≤ i ∧ p.h < excess p z d t (i + 1) ∧ ∀ j, t ≤ j → j < i → alarmAt p z j = none := by
  obtain ⟨s, hrestart, hsi, hquiet⟩ := exists_restart (z := z) hi
  obtain ⟨t, hst, hti, hlt⟩ := (lt_grown_iff hh hrestart hsi hquiet).mp (lt_grown_of_raises halarm)
  exact ⟨t, hrestart.warmup_le.trans hst, hti, hlt, fun j htj hji => hquiet j (hst.trans htj) hji⟩

/-- The loop stays silent exactly when no stretch exceeds the threshold. -/
theorem silent_iff (hh : 0 ≤ p.h) (n : ℕ) : (∀ i, p.warmup ≤ i → i < n → alarmAt p z i = none) ↔
    ∀ d s e, p.warmup ≤ s → s < e → e ≤ n → excess p z d s e ≤ p.h := by
  constructor
  · intro hsilent d s e hs hse he
    obtain ⟨i, rfl⟩ : ∃ i, e = i + 1 := ⟨e - 1, by omega⟩
    by_contra hlt
    -- no alarm so far: the loop still runs from the end of the warm-up, and is armed
    have hquiet : ∀ j, p.warmup ≤ j → j < i → alarmAt p z j = none := fun j hj hji => hsilent j hj (by omega)
    have harmed : armedFrom p p.warmup ≤ i := by
      unfold armedFrom
      rw [if_pos rfl]
      omega
    exact (alarmAt_iff hh (Or.inl rfl) (by omega) hquiet).mpr ⟨harmed, d, s, hs, by omega, not_le.mp hlt⟩
      (hsilent i (by omega) (by omega))
  · intro hlow i hi hin
    by_contra hne
    obtain ⟨d, hd⟩ := Option.ne_none_iff_exists'.mp hne
    obtain ⟨t, ht, hti, hlt, -⟩ := excess_of_alarm hh hi hd
    exact absurd hlt (not_lt.mpr (hlow d t (i + 1) ht (by omega) (by omega)))

end Detection

/-! ## The onsets of a series -/

theorem seriesAlarms_eq_nil_iff {p : CusumParams} {x : Series} (hlong : p.warmup + 4 ≤ x.length) :
    seriesAlarms p x = [] ↔ ∀ i, p.warmup ≤ i → i < x.length → alarmAt p (residualZ p x) i = none := by
  rw [List.eq_nil_iff_forall_not_mem]
  constructor
  · intro h i hi hlt
    by_contra hne
    obtain ⟨d, hd⟩ := Option.ne_none_iff_exists'.mp hne
    exact h ⟨i, d⟩ (mem_seriesAlarms.mpr ⟨hlong, hi, hlt, hd⟩)
  · intro h a ha
    obtain ⟨-, hwarm, hlt, hraised⟩ := mem_seriesAlarms.mp ha
    rw [h a.pos hwarm hlt] at hraised
    exact absurd hraised (by simp)

/-- **The detector is exact on drifts.** For every series and every setting with a threshold of 0 or more: nothing
    is reported exactly when the series is too short or no stretch after the warm-up exceeds the threshold; if it is
    not too short, every stretch of three samples or more that exceeds it contains an alarm; and every alarm ends a
    stretch that exceeds it in the alarm's own direction, begun after the alarm before. -/
theorem detector_exact (p : CusumParams) (hh : 0 ≤ p.h) (x : Series) :
    let z := residualZ p x
    (cusumOnsetsWith p x = [] ↔ x.length < p.warmup + 4 ∨
      ∀ d s e, p.warmup ≤ s → s < e → e ≤ x.length → excess p z d s e ≤ p.h) ∧
    (p.warmup + 4 ≤ x.length → ∀ d s e, p.warmup ≤ s → s + 3 ≤ e → e ≤ x.length → p.h < excess p z d s e →
      ∃ a ∈ seriesAlarms p x, s ≤ a.pos ∧ a.pos < e) ∧
    (∀ a ∈ seriesAlarms p x, ∃ s, p.warmup ≤ s ∧ s ≤ a.pos ∧ p.h < excess p z a.direction s (a.pos + 1) ∧
      ∀ b ∈ seriesAlarms p x, b.pos < a.pos → b.pos < s) := by
  intro z
  refine ⟨?_, ?_, ?_⟩
  · rw [cusumOnsets_eq_alarms, List.map_eq_nil_iff]
    rcases lt_or_ge x.length (p.warmup + 4) with hshort | hlong
    · have hnil : seriesAlarms p x = [] := if_pos hshort
      exact iff_of_true hnil (Or.inl hshort)
    · rw [seriesAlarms_eq_nil_iff hlong, silent_iff hh]
      exact (or_iff_right (not_lt.mpr hlong)).symm
  · intro hlong d s e hs hlen he hlt
    obtain ⟨i, hsi, hie, hne⟩ := exists_alarm_of_excess hh hs hlen hlt
    obtain ⟨d', hd'⟩ := Option.ne_none_iff_exists'.mp hne
    exact ⟨⟨i, d'⟩, mem_seriesAlarms.mpr ⟨hlong, hs.trans hsi, hie.trans_le he, hd'⟩, hsi, hie⟩
  · intro a ha
    obtain ⟨-, hwarm, -, hraised⟩ := mem_seriesAlarms.mp ha
    obtain ⟨s, hs, hsa, hlt, hquiet⟩ := excess_of_alarm hh hwarm hraised
    refine ⟨s, hs, hsa, hlt, ?_⟩
    intro b hb hba
    obtain ⟨-, -, -, hbraised⟩ := mem_seriesAlarms.mp hb
    by_contra hsb
    rw [hquiet b.pos (not_lt.mp hsb) hba] at hbraised
    exact absurd hbraised (by simp)

theorem detector_exact_step :
    let z := residualZ cusumDefaults cleanStep
    cusumOnsetsWith cusumDefaults cleanStep = [] ↔ cleanStep.length < cusumDefaults.warmup + 4 ∨
      ∀ d s e, cusumDefaults.warmup ≤ s → s < e → e ≤ cleanStep.length →
        excess cusumDefaults z d s e ≤ cusumDefaults.h :=
  (detector_exact cusumDefaults (by norm_num [cusumDefaults]) cleanStep).1

end EdgeCausal
