import EdgeCausal.Correctness.Admission
import EdgeCausal.Engine.Numeric
import EdgeCausal.Engine.State

/-!
# `Correctness.IncidentBaseline` — which incidents are learned as normal

A pass judges a pod over the recent tail of its ring, `updateBaselines` judges the same ring as a whole, both
against the threshold of the workload's row. A finding therefore leaves the row alone exactly when the
*whole* ring storms (`incident_unlearned_iff`): always when the recent tail is the whole ring, never while
less than a tenth of the ring is over the threshold.
-/

namespace EdgeCausal

open Lib

variable {cfg : MemoryConfig} {m : Memory} {args : PassArgs} {p : Pod} {vec : Series} {b : Baseline} {ts : ℚ}

/-- A pass gated by the memory's own thresholds, and the one live pod of a workload whose row is mature. -/
structure GatedPass (cfg : MemoryConfig) (m : Memory) (args : PassArgs) (p : Pod) (vec : Series)
    (b : Baseline) : Prop where
  row : m.baselines.get? (stableWorkload p, cfg.signal) = some b
  mature : cfg.baseMinN ≤ b.n
  ring : args.vectors.get? p = some vec
  single : ∀ q ∈ args.vectors.keys, stableWorkload q = stableWorkload p → q = p
  thresholds : args.baselines =
    some (args.vectors.mapVals fun q _ => baselineThreshold cfg m (stableWorkload q))

/-- What the row has learned, the time of its last update left out. -/
def Baseline.learned (b : Baseline) : ℚ × ℚ × ℕ := (b.median, b.mad, b.n)

/-- What the memory has learned of a workload. -/
def learnedOf (cfg : MemoryConfig) (m : Memory) (w : Workload) : Option (ℚ × ℚ × ℕ) :=
  (m.baselines.get? (w, cfg.signal)).map Baseline.learned

/-! ## One pass -/

/-- A finding has samples enough to be detected, and its recent tail clears the threshold of its row. -/
theorem GatedPass.finding (h : GatedPass cfg m args p vec b) (hp : p ∈ args.active) :
    16 ≤ vec.length ∧ b.threshold cfg < percentile 90 (gateVec args.recent vec) := by
  obtain ⟨ons, hons⟩ := mem_active_iff_raw.mp hp
  obtain ⟨vec', hvec, rfl, hstrong, hdev⟩ := raw_spec hons
  obtain rfl : vec = vec' := Option.some.inj (h.ring.symm.trans hvec)
  constructor
  · by_contra hshort
    apply hstrong
    unfold strongOnsets
    rw [cusumOnsets_short (by omega)]
    rfl
  · have hthr : baselineThreshold cfg m (stableWorkload p) = some (b.threshold cfg) := by
      unfold baselineThreshold
      rw [h.row]
      exact if_neg (not_lt.mpr h.mature)
    unfold deviates at hdev
    rw [h.thresholds] at hdev
    simpa [Dict.get?_mapVals, h.ring, hthr] using hdev

/-- A vector of another workload leaves the row alone. -/
theorem updateBaseline_frame {rows : Dict (Workload × Signal) Baseline} {pv : Pod × Series} {w : Workload}
    (h : stableWorkload pv.1 ≠ w) :
    (updateBaseline cfg ts rows pv).get? (w, cfg.signal) = rows.get? (w, cfg.signal) := by
  have hkey : (w, cfg.signal) ≠ (stableWorkload pv.1, cfg.signal) := by
    intro heq
    exact h (Prod.mk.inj heq).1.symm
  unfold updateBaseline
  split
  · rfl
  · dsimp only
    split <;> rw [Dict.get?_set, if_neg hkey]

/-- A vector long enough is blended into the row of its workload. -/
theorem updateBaseline_own {rows : Dict (Workload × Signal) Baseline}
    (hrow : rows.get? (stableWorkload p, cfg.signal) = some b) (hlen : 12 ≤ vec.length) :
    (updateBaseline cfg ts rows (p, vec)).get? (stableWorkload p, cfg.signal)
      = some (learnBaseline cfg ts vec b) := by
  unfold updateBaseline
  rw [if_neg (by simpa using hlen)]
  dsimp only
  rw [hrow]
  simp [Dict.get?_set]

theorem foldl_updateBaseline_frame {pvs : List (Pod × Series)} {w : Workload}
    (h : ∀ pv ∈ pvs, stableWorkload pv.1 ≠ w) (rows : Dict (Workload × Signal) Baseline) :
    (pvs.foldl (updateBaseline cfg ts) rows).get? (w, cfg.signal) = rows.get? (w, cfg.signal) := by
  refine List.foldlRecOn (motive := fun rows' : Dict (Workload × Signal) Baseline =>
    rows'.get? (w, cfg.signal) = rows.get? (w, cfg.signal)) pvs _ rfl ?_
  intro rows' ih pv hpv
  rw [updateBaseline_frame (h pv hpv), ih]

/-- The row after the pass is the row blended with the pod's own vector. -/
theorem GatedPass.updateBaselines_get? (h : GatedPass cfg m args p vec b) (hlen : 12 ≤ vec.length) :
    (updateBaselines cfg m args.vectors ts).baselines.get? (stableWorkload p, cfg.signal)
      = some (learnBaseline cfg ts vec b) := by
  obtain ⟨before, after, hsplit⟩ := List.append_of_mem (Dict.get?_eq_some_iff.mp h.ring)
  have hnodup := args.vectors.keys_nodup
  have hkeys : args.vectors.keys = before.map Prod.fst ++ p :: after.map Prod.fst := by
    simp [Dict.keys, hsplit]
  rw [hkeys, List.nodup_append, List.nodup_cons] at hnodup
  -- the other pods are of other workloads
  have hother : ∀ pv : Pod × Series, pv ∈ args.vectors.entries → pv.1 ≠ p →
      stableWorkload pv.1 ≠ stableWorkload p := by
    intro pv hpv hne heq
    exact hne (h.single pv.1 (Dict.mem_keys_of_mem hpv) heq)
  have hbefore : ∀ pv ∈ before, stableWorkload pv.1 ≠ stableWorkload p := by
    intro pv hpv
    refine hother pv (by simp [hsplit, hpv]) ?_
    exact hnodup.2.2 _ (List.mem_map_of_mem hpv) _ List.mem_cons_self
  have hafter : ∀ pv ∈ after, stableWorkload pv.1 ≠ stableWorkload p := by
    intro pv hpv
    refine hother pv (by simp [hsplit, hpv]) ?_
    rintro rfl
    exact hnodup.2.1.1 (List.mem_map_of_mem hpv)
  show (args.vectors.entries.foldl (updateBaseline cfg ts) m.baselines).get? _ = _
  rw [hsplit, List.foldl_append, List.foldl_cons, foldl_updateBaseline_frame hafter]
  apply updateBaseline_own _ hlen
  rw [foldl_updateBaseline_frame hbefore, h.row]

/-- The row learns from a vector exactly when the vector does not storm. -/
theorem learned_learnBaseline_iff (hmature : cfg.baseMinN ≤ b.n) :
    (learnBaseline cfg ts vec b).learned = b.learned ↔ b.threshold cfg < percentile 90 vec := by
  unfold learnBaseline
  split
  · rename_i hstorm
    simp [hstorm.2]
  · rename_i hcalm
    have hle : ¬ b.threshold cfg < percentile 90 vec := fun hlt => hcalm ⟨hmature, hlt⟩
    simp [Baseline.learned, hle]

/-- A tail at least as long as the ring is the ring. -/
theorem gateVec_of_le {n : ℕ} (h : vec.length ≤ n) : gateVec (some n) vec = vec := by
  unfold gateVec lastN
  dsimp only
  split
  · rfl
  · rw [Nat.sub_eq_zero_of_le h, List.drop_zero]

/-- Samples over a level that are less than a tenth of the ring do not lift its 90th percentile over it. -/
theorem percentile_le_of_few {t : ℚ} (hne : vec ≠ []) (hfew : 10 * vec.countP (t < ·) ≤ vec.length - 1) :
    percentile 90 vec ≤ t := by
  apply percentile_le (by norm_num) hne
  have hcast : ((10 * vec.countP (t < ·) : ℕ) : ℚ) ≤ ((vec.length - 1 : ℕ) : ℚ) := by exact_mod_cast hfew
  rw [Nat.cast_mul] at hcast
  norm_num at hcast ⊢
  linarith

/-! ## The result -/

/-- **A reported incident leaves its baseline unlearned exactly when the whole ring storms.** It does when
    the recent tail is the whole ring, and does not while less than a tenth of the ring is over the threshold. -/
theorem incident_unlearned_iff (cfg : MemoryConfig) (est : Estimators) (m : Memory) (args : PassArgs) (p : Pod)
    (vec : Series) (b : Baseline) (ts : ℚ) (h : GatedPass cfg m args p vec b)
    (hfinding : ∃ f ∈ (runPass est args).findings, f.pod = p) :
    (learnedOf cfg (updateBaselines cfg m args.vectors ts) (stableWorkload p)
        = learnedOf cfg m (stableWorkload p) ↔
      b.threshold cfg < percentile 90 vec) ∧
    (∀ n, args.recent = some n → vec.length ≤ n → b.threshold cfg < percentile 90 vec) ∧
    (10 * vec.countP (b.threshold cfg < ·) ≤ vec.length - 1 → ¬ b.threshold cfg < percentile 90 vec) := by
  obtain ⟨f, hf, rfl⟩ := hfinding
  have hactive : f.pod ∈ args.active := mem_active_iff.mpr ⟨_, onset_of_finding hf⟩
  obtain ⟨hlen, htail⟩ := h.finding hactive
  refine ⟨?_, ?_, ?_⟩
  · unfold learnedOf
    rw [h.updateBaselines_get? (by omega), h.row]
    exact Option.some_inj.trans (learned_learnBaseline_iff h.mature)
  · intro n hn hcover
    rwa [hn, gateVec_of_le hcover] at htail
  · intro hfew
    have hne : vec ≠ [] := List.length_pos_iff.mp (by omega)
    exact not_lt.mpr (percentile_le_of_few hne hfew)

/-! ### Storms at the end of a ring -/

/-- A quiet ring of sixty samples that ends in a storm of the given length. -/
def ringWithStorm (storm : ℕ) : Series :=
  List.replicate (60 - storm) (15 / 100) ++ List.replicate storm (9 / 10)

/-- A mature row of `timescaledb`. -/
def matureRow : Baseline := ⟨15 / 100, 0, 20, 0⟩

def matureMemory : Memory :=
  { Memory.empty with baselines := .ofList [(("timescaledb", "psi_io"), matureRow)] }

def ringVectors (storm : ℕ) : Dict Pod Series := .ofList [("timescaledb-x-1", ringWithStorm storm)]

/-- A pass over one ring, judged over its last twelve samples against the memory's thresholds. -/
def ringArgs (storm : ℕ) : PassArgs where
  vectors := ringVectors storm
  witness := ⟨[], [], [], []⟩
  sloBreach := none
  caps := ∅
  window := none
  writeVectors := none
  baselines := some ((ringVectors storm).mapVals fun q _ =>
    baselineThreshold .default matureMemory (stableWorkload q))
  recent := some 12

theorem ringArgs_gated (storm : ℕ) :
    GatedPass .default matureMemory (ringArgs storm) "timescaledb-x-1" (ringWithStorm storm) matureRow where
  row := by decide +kernel
  mature := by decide
  ring := rfl
  single := by simp [ringArgs, ringVectors, Dict.ofList, Dict.set, Dict.keys, Dict.setEntry]
  thresholds := rfl

/-- A storm of twelve samples is a finding and fills a fifth of the ring, so the row is left alone. -/
theorem incident_unlearned_iff_long :
    learnedOf .default (updateBaselines .default matureMemory (ringArgs 12).vectors 100)
        (stableWorkload "timescaledb-x-1")
      = learnedOf .default matureMemory (stableWorkload "timescaledb-x-1") :=
  (incident_unlearned_iff .default numericEstimators matureMemory (ringArgs 12) "timescaledb-x-1"
    (ringWithStorm 12) matureRow 100 (ringArgs_gated 12) (by decide +kernel)).1.mpr (by decide +kernel)

/-- A storm of four samples is a finding, and is learned. -/
theorem short_storm_learned :
    GatedPass .default matureMemory (ringArgs 4) "timescaledb-x-1" (ringWithStorm 4) matureRow ∧
    (∃ f ∈ (runPass numericEstimators (ringArgs 4)).findings, f.pod = "timescaledb-x-1") ∧
    learnedOf .default (updateBaselines .default matureMemory (ringArgs 4).vectors 100)
        (stableWorkload "timescaledb-x-1")
      ≠ learnedOf .default matureMemory (stableWorkload "timescaledb-x-1") :=
  ⟨ringArgs_gated 4, by decide +kernel, by decide +kernel⟩

end EdgeCausal
