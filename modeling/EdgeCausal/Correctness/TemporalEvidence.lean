import EdgeCausal.Correctness.Admission
import EdgeCausal.Engine.Numeric

/-!
# `Correctness.TemporalEvidence` — what the `temporal` token says of two onsets

Both gates cite `temporal` when both onsets are known and the source's does not come after the victim's,
beyond the tolerance. The stat gate also bounds how much later the victim's may come, but only at a positive
lag: a peak at lag 0 carries no such bound.
-/

namespace EdgeCausal

open Lib

variable {est : Estimators} {args : PassArgs} {e : Edge}

/-- The onset of an edge's source: of its source vector for a source edge, of its signal otherwise. -/
def sourceOnset (args : PassArgs) (e : Edge) : Option ℚ :=
  if Evidence.write ∈ e.evidence then args.writeOnsetS.get? e.src else args.onsetS.get? e.src

/-- The two onsets of an edge are known and in order, and at a positive lag a bare edge's are not too far
    apart for that lag. -/
structure InTime (args : PassArgs) (e : Edge) (tSrc tDst : ℚ) : Prop where
  source : sourceOnset args e = some tSrc
  victim : args.onsetS.get? e.dst = some tDst
  ordered : tSrc - temporalTolS ≤ tDst
  close : Evidence.write ∉ e.evidence → 0 < e.lagS → tDst ≤ tSrc + 4 * e.lagS + temporalTolS

/-- The stat gate bounds the distance of two onsets at a positive lag. -/
theorem temporalOk_close {ts td : ℚ} {lagS : ℕ} (h : temporalOk (some ts) (some td) lagS = true)
    (hlag : 0 < lagS) : td ≤ ts + 4 * lagS + temporalTolS := by
  by_contra hfar
  have hfar' : td - ts > 4 * lagS + temporalTolS := by linarith
  simp [temporalOk, hlag, hfar'] at h

/-- What the stat gate cited `temporal` for. -/
theorem temporal_mem_accept {w : Witness} {src dst : Pod} {tSrc tDst : Option ℚ}
    (h : Evidence.temporal ∈ [Evidence.stat] ++ w.kinds src dst ++ temporalTag tSrc tDst) :
    ∃ ts td, tSrc = some ts ∧ tDst = some td := by
  simp only [List.mem_append, Witness.mem_kinds, temporalTag] at h
  cases tSrc with
  | none => simp at h
  | some ts =>
      cases tDst with
      | none => simp at h
      | some td => exact ⟨ts, td, rfl, rfl⟩

/-- A bare edge passed the temporal clause on its own ends, with its own lag. -/
theorem psiEdges_temporalOk
    (h : e ∈ psiEdges est args.witness args.active args.onsetS args.vectors args.cvec) :
    temporalOk (args.onsetS.get? e.src) (args.onsetS.get? e.dst) e.lagS = true := by
  obtain ⟨⟨a, b⟩, -, h⟩ := List.mem_filterMap.mp h
  unfold psiEdge at h
  dsimp only at h
  split at h
  · exact absurd h (by simp)
  · split at h
    · exact absurd h (by simp)
    · obtain ⟨-, -, -, hok, rfl⟩ := acceptEdge_spec h
      exact hok

theorem psiEdges_inTime
    (h : e ∈ psiEdges est args.witness args.active args.onsetS args.vectors args.cvec)
    (ht : Evidence.temporal ∈ e.evidence) : ∃ tSrc tDst, InTime args e tSrc tDst := by
  have hbare : Evidence.write ∉ e.evidence := (psiEdges_spec h).write_not_mem
  have hok := psiEdges_temporalOk h
  rw [(psiEdges_spec h).evidence] at ht
  obtain ⟨ts, td, hts, htd⟩ := temporal_mem_accept ht
  rw [hts, htd] at hok
  refine ⟨ts, td, ?_, htd, ?_, ?_⟩
  · rw [sourceOnset, if_neg hbare, hts]
  · have := temporalOk_le hok
    linarith
  · intro _ hlag
    exact temporalOk_close hok hlag

theorem SourceEdge.inTime (h : SourceEdge est args e) : ∃ tSrc tDst, InTime args e tSrc tDst := by
  obtain ⟨tw, tv, htw, htv, hle⟩ := h.stormed
  refine ⟨tw, tv, ?_, htv, ?_, ?_⟩
  · rw [sourceOnset, if_pos h.write_mem, htw]
  · linarith
  · intro hbare
    exact absurd h.write_mem hbare

/-- **An edge that cites `temporal` is in time.** -/
theorem temporal_inTime (est : Estimators) (args : PassArgs) (e : Edge)
    (he : e ∈ (runPass est args).edges) (ht : Evidence.temporal ∈ e.evidence) :
    ∃ tSrc tDst, InTime args e tSrc tDst := by
  rcases passEdges_origin he with h | h
  · exact psiEdges_inTime h ht
  · exact (sourceEdges_spec h).inTime

/-! ### A pod that follows another -/

/-- Two pods on one volume; the one does what the other did fifteen seconds before. -/
def delayedArgs : PassArgs where
  vectors :=
    let storm : Series := [9, 7, 8, 6, 9, 5, 8, 7, 6, 9, 8, 5, 7, 9, 6, 8, 7, 5, 9, 8]
    .ofList [("cooling-monitor", List.replicate 20 0 ++ storm), ("timescaledb", List.replicate 23 0 ++ storm.take 17)]
  witness := ⟨[], [], [("cooling-monitor", "timescaledb")], []⟩
  sloBreach := none
  caps := ∅
  window := none
  writeVectors := none
  baselines := none
  recent := none

def delayedEdge : Edge := ⟨"cooling-monitor", "timescaledb", 1, 15, [.stat, .pvc, .temporal]⟩

theorem delayedEdge_mem : delayedEdge ∈ (runPass numericEstimators delayedArgs).edges := by
  decide +kernel

theorem temporal_inTime_delayed : ∃ tSrc tDst, InTime delayedArgs delayedEdge tSrc tDst :=
  temporal_inTime numericEstimators delayedArgs delayedEdge delayedEdge_mem (by decide)

/-! ### Onsets minutes apart -/

/-- A jittering ramp with one spike. -/
def rampWithSpike (spike : ℕ) : Series :=
  let jitter : Series := [0, 2, -1, 1, -2]
  (List.range 40).map fun i : ℕ => (i : ℚ) / 2 + jitter.getD (i % 5) 0 + if i = spike then 14 else 0

/-- Two pods on one volume ramp together; the one spikes early on, the other at the end. -/
def spikeArgs (writeVectors : Option (Dict Pod Series)) : PassArgs where
  vectors := .ofList [("cooling-monitor", rampWithSpike 13), ("timescaledb", rampWithSpike 38)]
  witness := ⟨[], [], [("cooling-monitor", "timescaledb")], []⟩
  sloBreach := none
  caps := ∅
  window := none
  writeVectors := writeVectors
  baselines := none
  recent := none

/-- The early pod's own activity as a source vector. -/
def spikeWrites : Dict Pod Series := .ofList [("cooling-monitor", rampWithSpike 13)]

/-- The edge of the pass, with the evidence of its admission path. -/
def spikeEdge (admitted : Evidence) : Edge :=
  ⟨"cooling-monitor", "timescaledb", 888 / 1000, 0, [admitted, .pvc, .temporal]⟩

theorem spikeEdge_bare : spikeEdge .stat ∈ (runPass numericEstimators (spikeArgs none)).edges := by
  decide +kernel

theorem spikeEdge_source :
    spikeEdge .write ∈ (runPass numericEstimators (spikeArgs (some spikeWrites))).edges := by
  decide +kernel

/-- A bare edge whose lag is 0 and a source edge, each citing `temporal` for onsets 125 s apart. -/
theorem temporal_minutes_apart :
    (∃ e ∈ (runPass numericEstimators (spikeArgs none)).edges,
      Evidence.write ∉ e.evidence ∧ Evidence.temporal ∈ e.evidence ∧
      sourceOnset (spikeArgs none) e = some 65 ∧ (spikeArgs none).onsetS.get? e.dst = some 190 ∧
      ¬ (190 : ℚ) ≤ 65 + 4 * e.lagS + temporalTolS) ∧
    (∃ e ∈ (runPass numericEstimators (spikeArgs (some spikeWrites))).edges,
      Evidence.write ∈ e.evidence ∧ Evidence.temporal ∈ e.evidence ∧
      sourceOnset (spikeArgs (some spikeWrites)) e = some 65 ∧
      (spikeArgs (some spikeWrites)).onsetS.get? e.dst = some 190 ∧
      ¬ (190 : ℚ) ≤ 65 + 4 * e.lagS + temporalTolS) := by
  refine ⟨⟨spikeEdge .stat, spikeEdge_bare, ?_⟩, ⟨spikeEdge .write, spikeEdge_source, ?_⟩⟩ <;>
    decide +kernel

end EdgeCausal
