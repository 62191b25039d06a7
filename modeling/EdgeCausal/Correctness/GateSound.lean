import EdgeCausal.Correctness.Admission

/-!
# `Correctness.GateSound` — the evidence gate of a pass is sound

Whatever the vectors, the witness, the baselines and the breach list, the edges `runPass` returns are
exactly as well supported as the gate promises, on both admission paths and after deduplication.
-/

namespace EdgeCausal

open Lib

variable {est : Estimators} {args : PassArgs} {e : Edge}

/-- The floor of a gate survives the rounding of the served coefficient. -/
theorem rPeak_le_round {r : ℚ} (h : rPeak ≤ r) : rPeak ≤ roundAt 3 r := by
  have hgrid : rPeak = ((600 : ℤ) : ℚ) / 10 ^ 3 := by norm_num [rPeak]
  rw [hgrid] at h ⊢
  exact le_roundAt h

theorem rSrc_le_round {r : ℚ} (h : rSrc ≤ r) : rSrc ≤ roundAt 3 r := by
  have hgrid : rSrc = ((500 : ℤ) : ℚ) / 10 ^ 3 := by norm_num [rSrc]
  rw [hgrid] at h ⊢
  exact le_roundAt h

/-- A write onset of a pod is a strong onset of its source vector. -/
theorem writeOnset_spec {p : Pod} {t : ℚ} (h : args.writeOnsetS.get? p = some t) :
    ∃ wv, args.writes.get? p = some wv ∧ ∃ o ∈ cusumOnsets wv, 3 ≤ |o.zpeak| ∧ t = o.idx * dtS := by
  unfold PassArgs.writeOnsetS writeOnsetTimes at h
  rw [Dict.get?_filterMap, Option.bind_eq_some_iff] at h
  obtain ⟨wv, hwv, h⟩ := h
  obtain ⟨o, ho, rfl⟩ := Option.map_eq_some_iff.mp h
  have hmem : o ∈ strongOnsets wv := by
    unfold eventOnset at ho
    split at ho
    · exact firstMin_mem ho
    · exact List.mem_of_mem_head? ho
  obtain ⟨hcus, hz⟩ := List.mem_filter.mp hmem
  exact ⟨wv, hwv, o, hcus, by simpa using hz, rfl⟩

/-- A bare edge of the output, over the findings of the output. -/
structure BareSound (est : Estimators) (args : PassArgs) (e : Edge) : Prop where
  r_ge : rPeak ≤ e.r
  lag : e.lagS ∈ lagsS
  support : ∃ r, rPeak ≤ r ∧ e.r = roundAt 3 r ∧
    Supported (directedProfile est ((args.cvec.get? e.src).getD []) ((args.cvec.get? e.dst).getD []))
      e.lagS r rAdj
  coupled : relates args.witness.sharedRelation e.src e.dst ∨ relates args.witness.ebpfEdges e.src e.dst
  ordered : ∀ f ∈ (runPass est args).findings, ∀ f' ∈ (runPass est args).findings,
    f.pod = e.src → f'.pod = e.dst → f.onsetS ≤ f'.onsetS + temporalTolS

/-- A source edge of the output, over the findings of the output and the analysed slice. -/
structure SourceSound (est : Estimators) (args : PassArgs) (e : Edge) : Prop where
  r_ge : rSrc ≤ e.r
  lag : e.lagS ∈ lagsS
  support : ∃ r, rSrc ≤ r ∧ e.r = roundAt 3 r ∧
    Supported (lagProfile est ((args.writeCvec.get? e.src).getD []) ((args.cvec.get? e.dst).getD []))
      e.lagS r rAdj
  coupled : relates args.witness.sharedRelation e.src e.dst ∨ relates args.witness.ebpfEdges e.src e.dst ∨
    relates args.witness.sameNode e.src e.dst
  victim : ∃ f ∈ (runPass est args).findings, f.pod = e.dst ∧
    ∃ wv, args.writes.get? e.src = some wv ∧
      ∃ o ∈ cusumOnsets wv, 3 ≤ |o.zpeak| ∧ o.idx * dtS ≤ f.onsetS + temporalTolS
  dominant : args.writeAct e.dst < args.writeAct e.src

theorem BareEdge.sound (h : BareEdge est args e) : BareSound est args e := by
  obtain ⟨r, hr, hround, hsupp⟩ := h.peak
  refine ⟨hround ▸ rPeak_le_round hr, ?_, ⟨r, hr, hround, hsupp⟩, ?_, ?_⟩
  · exact lagProfile_keys _ (Dict.mem_keys_iff_get?.mpr ⟨r, hsupp.peak⟩)
  · exact (Witness.couples_iff.mp h.coupled).symm
  · intro f hf f' hf' hsrc hdst
    exact h.ordered _ _ (hsrc ▸ onset_of_finding hf) (hdst ▸ onset_of_finding hf')

theorem SourceEdge.sound (h : SourceEdge est args e) : SourceSound est args e := by
  obtain ⟨r, hr, hround, hsupp⟩ := h.peak
  refine ⟨hround ▸ rSrc_le_round hr, ?_, ⟨r, hr, hround, hsupp⟩, ?_, ?_, h.dominant⟩
  · exact lagProfile_keys _ (Dict.mem_keys_iff_get?.mpr ⟨r, hsupp.peak⟩)
  · rcases Witness.couplesSource_iff.mp h.coupled with hk | hk | hk
    · exact Or.inr (Or.inl hk)
    · exact Or.inl hk
    · exact Or.inr (Or.inr hk)
  · obtain ⟨tw, tv, htw, htv, hle⟩ := h.stormed
    obtain ⟨f, hf, hpod, honset⟩ := finding_of_onset est htv
    obtain ⟨wv, hwv, o, ho, hz, rfl⟩ := writeOnset_spec htw
    exact ⟨f, hf, hpod, wv, hwv, o, ho, hz, honset ▸ hle⟩

/-- **The evidence gate is sound.** No finding, no edge; one edge per unordered pair of different pods; and
    an edge is fully supported on the path it was admitted by, told apart by the `write` token. -/
theorem runPass_gate_sound (est : Estimators) (args : PassArgs) :
    ((runPass est args).findings = [] → (runPass est args).edges = []) ∧
    (∀ e ∈ (runPass est args).edges, e.src ≠ e.dst) ∧
    OnePerPair (runPass est args).edges ∧
    (∀ e ∈ (runPass est args).edges, Evidence.write ∉ e.evidence → BareSound est args e) ∧
    (∀ e ∈ (runPass est args).edges, Evidence.write ∈ e.evidence → SourceSound est args e) := by
  refine ⟨?_, ?_, passEdges_onePerPair est args, ?_, ?_⟩
  · intro h
    exact passEdges_eq_nil (findings_eq_nil_iff.mp h)
  · intro e he
    rcases passEdges_spec he with hb | hs
    · exact hb.ne
    · exact hs.ne
  · intro e he hw
    rcases passEdges_spec he with hb | hs
    · exact hb.sound
    · exact absurd hs.write_mem hw
  · intro e he hw
    rcases passEdges_spec he with hb | hs
    · exact absurd hw hb.write_not_mem
    · exact hs.sound

end EdgeCausal
