import EdgeCausal.Correctness.Admission
import EdgeCausal.Engine.Numeric
import EdgeCausal.Engine.Service

/-!
# `Correctness.Silence` — a factory that stays in its band is never blamed

Suppose every sample a workload ever presents on a signal lies in one interval of width
`devK · madFloor`. The learned median never leaves that interval (`BandedRows`), so every threshold handed
out is at least its upper end, no onset clears it, and the pass is quiet; a quiet pass promotes no case and
serves no root. The chain is carried through `serviceRun` for inputs of any length.
-/

namespace EdgeCausal

open Lib

/-! ## The learned baseline stays in the band -/

section Baseline
variable {cfg : MemoryConfig} {lo : Workload → ℚ}

/-- Upper end of a workload's band. -/
def bandTop (cfg : MemoryConfig) (lo : Workload → ℚ) (wl : Workload) : ℚ := lo wl + cfg.devK * cfg.madFloor

/-- Every sample of every vector lies in its workload's band. -/
def InBand (cfg : MemoryConfig) (lo : Workload → ℚ) (vectors : Dict Pod Series) : Prop :=
  ∀ p v, vectors.get? p = some v → ∀ x ∈ v,
    lo (stableWorkload p) ≤ x ∧ x ≤ bandTop cfg lo (stableWorkload p)

/-- Every learned median of the signal lies in its workload's band. -/
def BandedRows (cfg : MemoryConfig) (lo : Workload → ℚ) (rows : Dict (Workload × Signal) Baseline) :
    Prop :=
  ∀ wl b, rows.get? (wl, cfg.signal) = some b → lo wl ≤ b.median ∧ b.median ≤ bandTop cfg lo wl

/-- Learning blends a median of the band into the band. -/
theorem learnBaseline_mem (h0 : 0 ≤ cfg.baseAlpha) (h1 : cfg.baseAlpha ≤ 1) {ts : ℚ} {v : Series}
    {b : Baseline} {l u : ℚ} (hne : v ≠ []) (hv : ∀ x ∈ v, l ≤ x ∧ x ≤ u)
    (hb : l ≤ b.median ∧ b.median ≤ u) :
    l ≤ (learnBaseline cfg ts v b).median ∧ (learnBaseline cfg ts v b).median ≤ u := by
  unfold learnBaseline
  split
  · exact hb
  · exact mix_mem h0 h1 hb (median_mem hne hv)

/-- **Step.** One vector of `update_baselines` keeps the medians in the band. -/
theorem updateBaseline_banded (h0 : 0 ≤ cfg.baseAlpha) (h1 : cfg.baseAlpha ≤ 1) {ts : ℚ}
    {rows : Dict (Workload × Signal) Baseline} (hrows : BandedRows cfg lo rows) {pv : Pod × Series}
    (hpv : ∀ x ∈ pv.2, lo (stableWorkload pv.1) ≤ x ∧ x ≤ bandTop cfg lo (stableWorkload pv.1)) :
    BandedRows cfg lo (updateBaseline cfg ts rows pv) := by
  unfold updateBaseline
  split
  · exact hrows
  · rename_i hlen
    have hne : pv.2 ≠ [] := by
      intro h
      rw [h] at hlen
      exact hlen (by decide)
    have hset : ∀ b' : Baseline, (lo (stableWorkload pv.1) ≤ b'.median ∧
        b'.median ≤ bandTop cfg lo (stableWorkload pv.1)) →
        BandedRows cfg lo (rows.set (stableWorkload pv.1, cfg.signal) b') := by
      intro b' hb' wl b hb
      rw [Dict.get?_set] at hb
      split at hb
      · rename_i hkey
        obtain rfl := Option.some.inj hb
        obtain ⟨rfl, -⟩ := Prod.mk.inj hkey
        exact hb'
      · exact hrows wl b hb
    dsimp only
    split
    · exact hset _ (median_mem hne hpv)
    · rename_i b hb
      exact hset _ (learnBaseline_mem h0 h1 hne hpv (hrows _ b hb))

theorem updateBaselines_banded (h0 : 0 ≤ cfg.baseAlpha) (h1 : cfg.baseAlpha ≤ 1) {ts : ℚ} {m : Memory}
    (hm : BandedRows cfg lo m.baselines) {vectors : Dict Pod Series} (hv : InBand cfg lo vectors) :
    BandedRows cfg lo (updateBaselines cfg m vectors ts).baselines := by
  show BandedRows cfg lo (vectors.entries.foldl (updateBaseline cfg ts) m.baselines)
  refine List.foldlRecOn (motive := BandedRows cfg lo) vectors.entries _ hm ?_
  rintro rows hrows ⟨p, v⟩ hpv
  exact updateBaseline_banded h0 h1 hrows (hv p v (Dict.get?_eq_some_iff.mpr hpv))

/-- A threshold handed out is never below the top of the band. -/
theorem bandTop_le_threshold (hk : 0 ≤ cfg.devK) {m : Memory} (hm : BandedRows cfg lo m.baselines)
    {wl : Workload} {thr : ℚ} (h : baselineThreshold cfg m wl = some thr) : bandTop cfg lo wl ≤ thr := by
  unfold baselineThreshold at h
  split at h
  · exact absurd h (by simp)
  · rename_i b hb
    split at h
    · exact absurd h (by simp)
    · obtain rfl := Option.some.inj h
      have hmed := (hm wl b hb).1
      have hmad : cfg.devK * cfg.madFloor ≤ cfg.devK * max b.mad cfg.madFloor :=
        mul_le_mul_of_nonneg_left (le_max_right _ _) hk
      unfold bandTop Baseline.threshold
      linarith

end Baseline

/-! ## A pass in the band is quiet -/

/-- A pass output that reports nothing. -/
structure Quiet (g : CausalGraph) : Prop where
  findings : g.findings = []
  edges : g.edges = []
  ranking : g.rootCauseRanking = []
  blast : g.blastRadius = []

/-- A pass without an anomalous pod is quiet, whatever the breach list. -/
theorem runPass_quiet {est : Estimators} {args : PassArgs} (h : args.active = []) :
    Quiet (runPass est args) := by
  have hedges : passEdges est args = [] := passEdges_eq_nil h
  have hrank : rankRootCauses (buildGraph (passEdges est args)) args.seeds args.onsetS topCauses = [] := by
    rw [hedges]; rfl
  refine ⟨findings_eq_nil_iff.mpr h, hedges, hrank, ?_⟩
  show blastOfTop (buildGraph (passEdges est args))
    (rankRootCauses (buildGraph (passEdges est args)) args.seeds args.onsetS topCauses) = []
  rw [hrank]; rfl

/-- The tail a deviation is judged over is not empty and made of samples of the vector. -/
theorem gateVec_spec (recent : Option ℕ) {v : Series} (hne : v ≠ []) :
    gateVec recent v ≠ [] ∧ ∀ x ∈ gateVec recent v, x ∈ v := by
  unfold gateVec
  split
  · split
    · exact ⟨hne, fun x hx => hx⟩
    · rename_i hn
      exact ⟨lastN_ne_nil hn hne, fun x hx => mem_of_mem_lastN hx⟩
  · exact ⟨hne, fun x hx => hx⟩

/-- A pod whose samples never exceed its threshold does not deviate. -/
theorem deviates_eq_false {thresholds : Dict Pod (Option ℚ)} {recent : Option ℕ} {p : Pod} {v : Series}
    (hne : v ≠ []) (h : ∀ thr, (thresholds.get? p).join = some thr → ∀ x ∈ v, x ≤ thr) :
    deviates (some thresholds) recent p v = false := by
  unfold deviates
  dsimp only
  split
  · rfl
  · rename_i thr hthr
    obtain ⟨hgne, hgmem⟩ := gateVec_spec recent hne
    have hle := h thr hthr
    obtain ⟨m, hm⟩ : ∃ m, ∀ x ∈ gateVec recent v, m ≤ x ∧ x ≤ thr := by
      cases hmin : firstMin id (gateVec recent v) with
      | none => exact absurd (firstMin_eq_none_iff.mp hmin) hgne
      | some m => exact ⟨m, fun x hx => ⟨firstMin_le hmin x hx, hle x (hgmem x hx)⟩⟩
    have hp := (percentile_mem (q := 90) (by norm_num) (by norm_num) hgne hm).2
    exact decide_eq_false (not_lt.mpr hp)

/-- No pod is anomalous when no vector exceeds its threshold. -/
theorem active_eq_nil {args : PassArgs} {thresholds : Dict Pod (Option ℚ)}
    (hb : args.baselines = some thresholds)
    (h : ∀ p v, args.vectors.get? p = some v → ∀ thr, (thresholds.get? p).join = some thr →
      ∀ x ∈ v, x ≤ thr) :
    args.active = [] := by
  rw [List.eq_nil_iff_forall_not_mem]
  intro p hp
  obtain ⟨ons, hons⟩ := mem_active_iff_raw.mp hp
  obtain ⟨v, hv, rfl, hstrong, hdev⟩ := raw_spec hons
  have hne : v ≠ [] := by
    rintro rfl
    exact hstrong (by unfold strongOnsets; rw [cusumOnsets_short (by simp)]; rfl)
  rw [hb, deviates_eq_false hne (h p v hv)] at hdev
  exact absurd hdev (by simp)

/-! ## Observing a quiet pass -/

section Observe
variable {cfg : MemoryConfig} {sha1 : CaseKey → CaseId} {m : Memory} {g : CausalGraph}
  {vectors : Dict Pod Series} {w : Option Witness} {ts now : ℚ}

/-- A quiet pass promotes no case. -/
theorem promoteCase_quiet (hg : Quiet g) : promoteCase cfg sha1 m g ts = (m, none) := by
  unfold promoteCase fingerprint
  rw [hg.ranking]

theorem observe_quiet_cases (hg : Quiet g) :
    (observe cfg sha1 m g vectors w ts now).1.cases = m.cases := by
  unfold observe remember
  dsimp only
  rw [promoteCase_quiet hg, if_pos hg.edges]
  rfl

theorem observe_quiet_baselines (hg : Quiet g) :
    (observe cfg sha1 m g vectors w ts now).1.baselines = (updateBaselines cfg m vectors ts).baselines := by
  unfold observe remember
  dsimp only
  rw [promoteCase_quiet hg, if_pos hg.edges]

/-- What is rendered of a quiet pass: held edges at most, no finding and no root. -/
theorem observe_quiet_served (hg : Quiet g) :
    let served := (observe cfg sha1 m g vectors w ts now).2
    served.findings = [] ∧ served.rootCauseRanking = [] ∧ served.blastRadius = [] := by
  unfold observe render
  dsimp only
  rw [hg.findings]
  simp only [List.map_nil, ne_eq, not_true_eq_false, false_and, if_false, true_and]
  exact ⟨hg.ranking, hg.blast⟩

end Observe

/-- A merge without findings has no root and no blast radius. -/
theorem mergeGraphs_silent {perSignal : Dict Signal ServedGraph} {primary : Option Signal}
    (h : ∀ sg ∈ perSignal.entries, sg.2.findings = []) :
    (mergeGraphs perSignal primary).rootCauseRanking = [] ∧
      (mergeGraphs perSignal primary).blastRadius = [] := by
  have hfind : mergedFindings perSignal = [] := by
    unfold mergedFindings
    rw [List.flatMap_eq_nil_iff]
    intro sg hsg
    rw [h sg hsg]; rfl
  have hrank : mergedRanking (mergedEdges perSignal) (mergedFindings perSignal) = [] := by
    unfold mergedRanking
    exact if_pos (Or.inr hfind)
  refine ⟨hrank, ?_⟩
  show blastOfTop _ (mergedRanking (mergedEdges perSignal) (mergedFindings perSignal)) = []
  rw [hrank]; rfl

/-! ## The service run -/

section Service
variable {est : Estimators} {sha1 : CaseKey → CaseId} {svc : ServiceConfig}
  {lo : Signal → Workload → ℚ}

/-- The input keeps every workload of every signal in its band. -/
def InputInBand (svc : ServiceConfig) (lo : Signal → Workload → ℚ) (inp : PassInput) : Prop :=
  ∀ sig ∈ svc.signals, InBand (configFor svc sig) (lo sig) (inp.vectors sig)

/-- The memories have learned nothing outside the bands and hold no case. -/
def SilentMemories (svc : ServiceConfig) (lo : Signal → Workload → ℚ) (mems : Memories) : Prop :=
  ∀ sig, BandedRows (configFor svc sig) (lo sig) (mems sig).baselines ∧ (mems sig).cases = ∅

/-- What holds of a pass of the service in the band, after any number of its signals. -/
structure SilentRecord (svc : ServiceConfig) (lo : Signal → Workload → ℚ) (cur : PassRecord) :
    Prop where
  memories : SilentMemories svc lo cur.memories
  outputs : ∀ out ∈ cur.outputs, Quiet out.2
  rendered : ∀ sg ∈ cur.rendered.entries, sg.2.findings = []

/-- The thresholds a signal's pass is run with cover its vectors. -/
theorem passArgs_quiet (hk : 0 ≤ svc.memory.devK) {sig : Signal} {m : Memory} {inp : PassInput}
    (hm : BandedRows (configFor svc sig) (lo sig) m.baselines)
    (hv : InBand (configFor svc sig) (lo sig) (inp.vectors sig)) :
    Quiet (runPass est (passArgs svc sig m inp)) := by
  refine runPass_quiet (active_eq_nil rfl ?_)
  intro p v hpv thr hthr x hx
  have hpv' : (inp.vectors sig).get? p = some v := hpv
  rw [Dict.get?_mapVals, hpv'] at hthr
  have hk' : 0 ≤ (configFor svc sig).devK := hk
  have hle : bandTop (configFor svc sig) (lo sig) (workload p) ≤ thr :=
    bandTop_le_threshold hk' hm (by simpa using hthr)
  exact (hv p v hpv' x hx).2.trans hle

/-- **Step.** One signal of a pass in the band keeps the record silent. -/
theorem signalPass_silent (h0 : 0 ≤ svc.memory.baseAlpha) (h1 : svc.memory.baseAlpha ≤ 1)
    (hk : 0 ≤ svc.memory.devK) {inp : PassInput} {cur : PassRecord} (hcur : SilentRecord svc lo cur)
    {sig : Signal} (hv : InBand (configFor svc sig) (lo sig) (inp.vectors sig)) :
    SilentRecord svc lo (signalPass est sha1 svc inp cur sig) := by
  unfold signalPass
  split
  · exact hcur
  · have hquiet : Quiet (runPass est (passArgs svc sig (cur.memories sig) inp)) :=
      passArgs_quiet hk (hcur.memories sig).1 hv
    set out := runPass est (passArgs svc sig (cur.memories sig) inp)
    refine ⟨?_, ?_, ?_⟩
    · -- the memory of this signal learns within the band, the others are not touched
      intro s
      by_cases hs : s = sig
      · subst hs
        simp only [Function.update_self]
        rw [observe_quiet_baselines hquiet, observe_quiet_cases hquiet]
        have h0' : 0 ≤ (configFor svc s).baseAlpha := h0
        have h1' : (configFor svc s).baseAlpha ≤ 1 := h1
        have hbanded : BandedRows (configFor svc s) (lo s)
            (updateBaselines (configFor svc s) (cur.memories s) (inp.vectors s) inp.ts).baselines :=
          updateBaselines_banded h0' h1' (hcur.memories s).1 hv
        exact ⟨hbanded, (hcur.memories s).2⟩
      · simp only [Function.update_of_ne hs]
        exact hcur.memories s
    · intro o ho
      rcases List.mem_append.mp ho with ho | ho
      · exact hcur.outputs o ho
      · obtain rfl := List.mem_singleton.mp ho
        exact hquiet
    · rintro ⟨s, served⟩ hsg
      have hget := Dict.get?_eq_some_iff.mpr hsg
      rw [Dict.get?_set] at hget
      split at hget
      · obtain rfl := Option.some.inj hget
        exact (observe_quiet_served hquiet).1
      · exact hcur.rendered _ (Dict.get?_eq_some_iff.mp hget)

/-- One pass of the service in the band is silent. -/
theorem servicePass_silent (h0 : 0 ≤ svc.memory.baseAlpha) (h1 : svc.memory.baseAlpha ≤ 1)
    (hk : 0 ≤ svc.memory.devK) {mems : Memories} (hmems : SilentMemories svc lo mems) {inp : PassInput}
    (hinp : InputInBand svc lo inp) : SilentRecord svc lo (servicePass est sha1 svc mems inp) := by
  unfold servicePass
  refine List.foldlRecOn (motive := SilentRecord svc lo) svc.signals _
    ⟨hmems, by simp, by simp⟩ ?_
  intro cur hcur sig hsig
  exact signalPass_silent h0 h1 hk hcur (hinp sig hsig)

/-- A silent record serves no root. -/
theorem SilentRecord.merged_silent {cur : PassRecord} (h : SilentRecord svc lo cur) :
    (cur.merged svc).rootCauseRanking = [] ∧ (cur.merged svc).blastRadius = [] := by
  unfold PassRecord.merged
  split
  · exact ⟨rfl, rfl⟩
  · exact mergeGraphs_silent h.rendered

/-- **Run.** Every pass of a run in the band is silent, from any silent memories. -/
theorem serviceRun_silentRecord (h0 : 0 ≤ svc.memory.baseAlpha) (h1 : svc.memory.baseAlpha ≤ 1)
    (hk : 0 ≤ svc.memory.devK) {mems : Memories} (hmems : SilentMemories svc lo mems)
    {inputs : List PassInput} (hinputs : ∀ inp ∈ inputs, InputInBand svc lo inp) :
    ∀ cur ∈ serviceRun est sha1 svc mems inputs, SilentRecord svc lo cur := by
  induction inputs generalizing mems with
  | nil => intro cur hcur; exact absurd hcur (by simp [serviceRun])
  | cons inp rest ih =>
      intro cur hcur
      have hpass : SilentRecord svc lo (servicePass est sha1 svc mems inp) :=
        servicePass_silent h0 h1 hk hmems (hinputs inp List.mem_cons_self)
      rcases List.mem_cons.mp hcur with rfl | hcur
      · exact hpass
      · exact ih hpass.memories (fun i hi => hinputs i (List.mem_cons_of_mem inp hi)) cur hcur

/-- **S0 is silent over whole runs.** From empty memories, whatever the restarts, the breach lists, the
    source vectors and the witnesses: while every workload stays in one band of width `devK · madFloor` per
    signal, no pass has a finding or an edge, no case is stored, and no root or blast radius is served. -/
theorem serviceRun_silent (est : Estimators) (sha1 : CaseKey → CaseId) (svc : ServiceConfig)
    (h0 : 0 ≤ svc.memory.baseAlpha) (h1 : svc.memory.baseAlpha ≤ 1) (hk : 0 ≤ svc.memory.devK)
    (lo : Signal → Workload → ℚ) (inputs : List PassInput)
    (hinputs : ∀ inp ∈ inputs, InputInBand svc lo inp) :
    ∀ cur ∈ serviceRun est sha1 svc (fun _ => Memory.empty) inputs,
      (∀ out ∈ cur.outputs, out.2.findings = [] ∧ out.2.edges = []) ∧
      (∀ sig, (cur.memories sig).cases = ∅) ∧
      (cur.merged svc).rootCauseRanking = [] ∧ (cur.merged svc).blastRadius = [] := by
  intro cur hcur
  have hempty : SilentMemories svc lo fun _ => Memory.empty :=
    fun _ => ⟨fun _ _ hb => absurd hb (by simp [Memory.empty]), rfl⟩
  have h := serviceRun_silentRecord h0 h1 hk hempty hinputs cur hcur
  exact ⟨fun out ho => ⟨(h.outputs out ho).findings, (h.outputs out ho).edges⟩,
    fun sig => (h.memories sig).2, h.merged_silent⟩

end Service

/-! ### An idle rehearsal -/

/-- The disk signal alone, with the default memory. -/
def idleService : ServiceConfig where
  signals := ["psi_io"]
  memory := MemoryConfig.default
  storage := ["timescaledb", "log-archiver"]
  copressureMin := 1 / 10
  analysisWindow := 60
  resetWindow := 12

/-- Two storage pods jittering inside a band of width 0.04, one of them breaching. -/
def idleInput : PassInput :=
  let jitter : Series := (List.range 20).map fun i => if i % 3 = 0 then 1 / 25 else 0
  PassInput.ofWindow idleService
    (fun _ => Dict.ofList [("timescaledb-0-a", jitter), ("log-archiver-0-b", jitter)])
    ["timescaledb-0-a"] 100 105

theorem idleInput_inBand : InputInBand idleService (fun _ _ => 0) idleInput := by
  have hsamples : ∀ pv ∈ (idleInput.vectors "psi_io").entries, ∀ x ∈ pv.2,
      (0 : ℚ) ≤ x ∧ x ≤ 0 + idleService.memory.devK * idleService.memory.madFloor := by
    decide +kernel
  intro sig hsig p v hv
  obtain rfl := List.mem_singleton.mp hsig
  exact hsamples (p, v) (Dict.get?_eq_some_iff.mp hv)

theorem serviceRun_silent_idle :
    let run := serviceRun numericEstimators (fun _ => 0) idleService (fun _ => Memory.empty)
      (List.replicate 30 idleInput)
    run ≠ [] ∧ ∀ cur ∈ run,
      (∀ out ∈ cur.outputs, out.2.findings = [] ∧ out.2.edges = []) ∧
      (∀ sig, (cur.memories sig).cases = ∅) ∧
      (cur.merged idleService).rootCauseRanking = [] ∧ (cur.merged idleService).blastRadius = [] :=
  ⟨List.cons_ne_nil _ _,
    serviceRun_silent numericEstimators (fun _ => 0) idleService (by decide +kernel)
      (by decide +kernel) (by decide +kernel)
      (fun _ _ => 0) (List.replicate 30 idleInput)
      (fun _ hinp => List.eq_of_mem_replicate hinp ▸ idleInput_inBand)⟩

end EdgeCausal
