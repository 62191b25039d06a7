import EdgeCausal.Collections.Runs
import EdgeCausal.Engine.Detectors

/-!
# `Correctness.Onsets` — the alarms behind the onsets

Every onset of the CUSUM loop belongs to one step, its *alarm*: the step resets both accumulators, disarms the
loop for the next two samples and walks back to the start of the run of deviating samples that ends there
(`cusumOnsets_eq_alarms`). Alarms are three samples apart (`alarms_spaced`) and onsets of one direction never
go back (`onsets_ordered`).
-/

namespace EdgeCausal

open Lib

/-! ## Walking back -/

/-- The sign of a direction. -/
def Direction.sign : Direction → ℚ
  | .up => 1
  | .down => -1

/-- The sample deviates in the direction, by more than half a sigma. -/
def Deviates (z : Series) (d : Direction) (j : ℕ) : Prop := 1 / 2 < d.sign * z.getD j 0

instance (z : Series) (d : Direction) : DecidablePred (Deviates z d) := fun j =>
  inferInstanceAs (Decidable (1 / 2 < d.sign * z.getD j 0))

theorem backtrack_eq_runStart (z : Series) (d : Direction) (i : ℕ) :
    backtrack z d.sign i = runStart (Deviates z d) i := by
  induction i with
  | zero => rfl
  | succ i ih =>
      unfold backtrack runStart
      rw [ih]
      rfl

/-- A sample deviates one way only. -/
theorem Deviates.not_opposite {z : Series} {d d' : Direction} {j : ℕ} (h : Deviates z d j) (hne : d ≠ d') :
    ¬ Deviates z d' j := by
  unfold Deviates at *
  cases d <;> cases d' <;> simp only [Direction.sign, ne_eq, not_true_eq_false] at h hne ⊢ <;> linarith

/-! ## The loop, step by step -/

section Loop
variable (p : CusumParams) (z : Series)

/-- The state of the loop before sample `i`. -/
def cusumAt (i : ℕ) : CusumState :=
  (List.range' p.warmup (i - p.warmup)).foldl (cusumStep p z) ⟨0, 0, p.warmup, []⟩

/-- The direction in which a step raises an alarm, if it does. -/
def raises (s : CusumState) (i : ℕ) : Option Direction :=
  if max 0 (s.gp + z.getD i 0 - p.k) > p.h ∧ s.armedAt ≤ i then some .up
  else if max 0 (s.gn - z.getD i 0 - p.k) > p.h ∧ s.armedAt ≤ i then some .down
  else none

/-- The alarm at sample `i` of the run. -/
def alarmAt (i : ℕ) : Option Direction := raises p z (cusumAt p z i) i

/-- An alarm: the sample it is raised at, and which way. -/
structure Alarm where
  pos : ℕ
  direction : Direction

/-- The onset an alarm reports. -/
def Alarm.onset (a : Alarm) : Onset := ⟨backtrack z a.direction.sign a.pos, a.direction, z.getD a.pos 0⟩

/-- The alarms of the run before sample `n`, in order. -/
def alarms (n : ℕ) : List Alarm :=
  (List.range' p.warmup (n - p.warmup)).filterMap fun i => (alarmAt p z i).map fun d => ⟨i, d⟩

variable {p z} {s : CusumState} {i j n : ℕ} {d : Direction} {a : Alarm}

/-- A step that raises an alarm resets the loop and disarms it. -/
theorem cusumStep_raised (h : raises p z s i = some d) :
    cusumStep p z s i = ⟨0, 0, i + 3, s.onsets ++ [Alarm.onset z ⟨i, d⟩]⟩ := by
  unfold raises at h
  unfold cusumStep
  dsimp only
  split at h
  · rename_i hup
    obtain rfl := Option.some.inj h
    rw [if_pos hup]
    rfl
  · rename_i hup
    split at h
    · rename_i hdown
      obtain rfl := Option.some.inj h
      rw [if_neg hup, if_pos hdown]
      rfl
    · exact absurd h (by simp)

/-- A step that raises none only accumulates. -/
theorem cusumStep_quiet (h : raises p z s i = none) :
    cusumStep p z s i = ⟨max 0 (s.gp + z.getD i 0 - p.k), max 0 (s.gn - z.getD i 0 - p.k), s.armedAt,
      s.onsets⟩ := by
  unfold raises at h
  split at h
  · exact absurd h (by simp)
  · rename_i hup
    split at h
    · exact absurd h (by simp)
    · rename_i hdown
      unfold cusumStep
      dsimp only
      rw [if_neg hup, if_neg hdown]

theorem armedAt_le_of_raises (h : raises p z s i = some d) : s.armedAt ≤ i := by
  unfold raises at h
  split at h
  · rename_i hup
    exact hup.2
  · split at h
    · rename_i hdown
      exact hdown.2
    · exact absurd h (by simp)

/-- An armed step without alarm has neither accumulator over the threshold. -/
theorem le_of_quiet (h : raises p z s i = none) (harmed : s.armedAt ≤ i) :
    (cusumStep p z s i).gp ≤ p.h ∧ (cusumStep p z s i).gn ≤ p.h := by
  rw [cusumStep_quiet h]
  unfold raises at h
  split at h
  · exact absurd h (by simp)
  · rename_i hup
    split at h
    · exact absurd h (by simp)
    · rename_i hdown
      exact ⟨not_lt.mp fun hgt => hup ⟨hgt, harmed⟩, not_lt.mp fun hgt => hdown ⟨hgt, harmed⟩⟩

theorem cusumAt_of_le (h : i ≤ p.warmup) : cusumAt p z i = ⟨0, 0, p.warmup, []⟩ := by
  unfold cusumAt
  rw [Nat.sub_eq_zero_of_le h]
  rfl

theorem cusumAt_succ (h : p.warmup ≤ i) : cusumAt p z (i + 1) = cusumStep p z (cusumAt p z i) i := by
  unfold cusumAt
  rw [Nat.succ_sub h, List.range'_concat, List.foldl_append, Nat.one_mul, Nat.add_sub_cancel' h]
  rfl

/-- The onsets are those of the alarms. -/
theorem cusumAt_onsets (n : ℕ) : (cusumAt p z n).onsets = (alarms p z n).map (Alarm.onset z) := by
  induction n with
  | zero => simp [cusumAt, alarms]
  | succ n ih =>
      rcases le_or_gt p.warmup n with hle | hlt
      · rw [cusumAt_succ hle]
        unfold alarms
        rw [Nat.succ_sub hle, List.range'_concat, List.filterMap_append, List.map_append, Nat.one_mul,
          Nat.add_sub_cancel' hle]
        change _ = (alarms p z n).map (Alarm.onset z) ++ _
        rw [← ih]
        cases hraise : alarmAt p z n with
        | none =>
            rw [cusumStep_quiet hraise]
            simp [hraise]
        | some d =>
            rw [cusumStep_raised hraise]
            simp [hraise]
      · simp [cusumAt, alarms, Nat.sub_eq_zero_of_le (Nat.succ_le_of_lt hlt)]

theorem mem_alarms :
    a ∈ alarms p z n ↔ p.warmup ≤ a.pos ∧ a.pos < n ∧ alarmAt p z a.pos = some a.direction := by
  unfold alarms
  simp only [List.mem_filterMap, List.mem_range'_1, Option.map_eq_some_iff]
  constructor
  · rintro ⟨i, hi, d, hd, rfl⟩
    have hlt : i < n := by omega
    exact ⟨hi.1, hlt, hd⟩
  · rintro ⟨hwarm, hn, hd⟩
    exact ⟨a.pos, ⟨hwarm, by omega⟩, a.direction, hd, rfl⟩

/-! ## Re-arming -/

theorem armedAt_mono (h : i ≤ j) : (cusumAt p z i).armedAt ≤ (cusumAt p z j).armedAt := by
  induction j, h using Nat.le_induction with
  | base => exact le_rfl
  | succ j _ ih =>
      refine ih.trans ?_
      rcases le_or_gt p.warmup j with hle | hlt
      · rw [cusumAt_succ hle]
        cases hraise : raises p z (cusumAt p z j) j with
        | none => rw [cusumStep_quiet hraise]
        | some d =>
            rw [cusumStep_raised hraise]
            exact (armedAt_le_of_raises hraise).trans (by simp)
      · rw [cusumAt_of_le hlt.le, cusumAt_of_le (Nat.succ_le_of_lt hlt)]

/-- After an alarm the loop is armed again three samples later. -/
theorem add_three_le_of_alarms {d' : Direction} (hwarm : p.warmup ≤ i) (hi : alarmAt p z i = some d)
    (hj : alarmAt p z j = some d') (hij : i < j) : i + 3 ≤ j := by
  have hreset : (cusumAt p z (i + 1)).armedAt = i + 3 := by
    rw [cusumAt_succ hwarm, cusumStep_raised hi]
  calc i + 3 = (cusumAt p z (i + 1)).armedAt := hreset.symm
    _ ≤ (cusumAt p z j).armedAt := armedAt_mono hij
    _ ≤ j := armedAt_le_of_raises hj

/-- **Alarms are three samples apart.** -/
theorem alarms_spaced (n : ℕ) : (alarms p z n).Pairwise fun a b => a.pos + 3 ≤ b.pos := by
  unfold alarms
  rw [List.pairwise_filterMap]
  have hsorted : (List.range' p.warmup (n - p.warmup)).Pairwise (· < ·) := List.pairwise_lt_range'
  refine hsorted.imp_of_mem ?_
  intro i j hi _ hij a ha b hb
  obtain ⟨d, hd, rfl⟩ := Option.map_eq_some_iff.mp ha
  obtain ⟨d', hd', rfl⟩ := Option.map_eq_some_iff.mp hb
  exact add_three_le_of_alarms (List.mem_range'_1.mp hi).1 hd hd' hij

/-- **Onsets of one direction never go back**: the later alarm would have been walked back from as far. -/
theorem onset_idx_mono {b : Alarm} (hdir : a.direction = b.direction) (hpos : a.pos ≤ b.pos) :
    (a.onset z).idx ≤ (b.onset z).idx := by
  unfold Alarm.onset
  rw [backtrack_eq_runStart, backtrack_eq_runStart, hdir]
  exact runStart_mono hpos

/-- From an onset up to its alarm every sample deviates. -/
theorem onset_run (hj : (a.onset z).idx ≤ j) (hlt : j < a.pos) : Deviates z a.direction j := by
  unfold Alarm.onset at hj
  rw [backtrack_eq_runStart] at hj
  exact runStart_holds hj hlt

theorem onset_idx_le (a : Alarm) : (a.onset z).idx ≤ a.pos := by
  unfold Alarm.onset
  rw [backtrack_eq_runStart]
  exact runStart_le a.pos

end Loop

/-! ## The onsets of a series -/

section Series
variable {p : CusumParams} {x : Series}

theorem length_residualZ (p : CusumParams) (x : Series) : (residualZ p x).length = x.length := by
  have hfrom : ∀ (alpha prev : ℚ) (xs : Series), (ewmaFrom alpha prev xs).length = xs.length := by
    intro alpha prev xs
    induction xs generalizing prev with
    | nil => rfl
    | cons x xs ih => simp [ewmaFrom, ih]
  unfold residualZ
  cases x with
  | nil => rfl
  | cons x xs => simp [ewma, hfrom]

/-- The alarms of a series; one too short has none. -/
def seriesAlarms (p : CusumParams) (x : Series) : List Alarm :=
  if x.length < p.warmup + 4 then [] else alarms p (residualZ p x) x.length

/-- **Every onset is that of one alarm**, in order. -/
theorem cusumOnsets_eq_alarms (p : CusumParams) (x : Series) :
    cusumOnsetsWith p x = (seriesAlarms p x).map (Alarm.onset (residualZ p x)) := by
  unfold cusumOnsetsWith seriesAlarms
  split
  · rfl
  · dsimp only
    rw [← cusumAt_onsets, length_residualZ]
    rfl

theorem seriesAlarms_spaced (p : CusumParams) (x : Series) :
    (seriesAlarms p x).Pairwise fun a b => a.pos + 3 ≤ b.pos := by
  unfold seriesAlarms
  split
  · exact List.Pairwise.nil
  · exact alarms_spaced x.length

theorem mem_seriesAlarms {a : Alarm} : a ∈ seriesAlarms p x ↔ p.warmup + 4 ≤ x.length ∧ p.warmup ≤ a.pos ∧
    a.pos < x.length ∧ alarmAt p (residualZ p x) a.pos = some a.direction := by
  unfold seriesAlarms
  split
  · rename_i hshort
    exact iff_of_false List.not_mem_nil fun h => by omega
  · rename_i hlong
    rw [mem_alarms]
    exact (and_iff_right (not_lt.mp hlong)).symm

end Series

end EdgeCausal
