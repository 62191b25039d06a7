import EdgeCausal.Correctness.GateSound
import EdgeCausal.Correctness.Recognition

/-!
# `Correctness.Aggressor` — the library never learns a victim as the aggressor

A promotable verdict of `runPass` names a stressor that owns a source edge, and a source edge has passed the
gate in the direction it is stored in (`fingerprint_aggressor`). A stored prototype keeps the form it was
promoted in, and with a merge threshold above what victims and motif alone can contribute a fold keeps the
stressor, so a recurrence blames the same workload that the pass itself has evidence against.
-/

namespace EdgeCausal

open Lib

variable {cfg : MemoryConfig} {est : Estimators} {args : PassArgs} {sha1 : CaseKey → CaseId}

/-! ## The form of a prototype -/

/-- A prototype blames one workload for others, along a motif that leaves it. -/
structure BlamesSource (key : CaseKey) (s : Workload) : Prop where
  stressor : key.stressors = [s]
  victims : key.victims ≠ []
  not_victim : s ∉ key.victims
  motif : ∃ m ∈ key.motif, m.1 = s

/-- What a pass holds against a workload: an edge of its own graph, leaving a pod of the workload, admitted as
    a source edge against a current finding. -/
structure EvidenceAgainst (est : Estimators) (args : PassArgs) (s : Workload) (e : Edge) : Prop where
  accepted : e ∈ (runPass est args).edges
  src : stableWorkload e.src = s
  write : Evidence.write ∈ e.evidence
  coupled : relates args.witness.sharedRelation e.src e.dst ∨ relates args.witness.ebpfEdges e.src e.dst ∨
    relates args.witness.sameNode e.src e.dst
  dominant : args.writeAct e.dst < args.writeAct e.src
  finding : ∃ f ∈ (runPass est args).findings, f.pod = e.dst ∧
    ∃ tw, args.writeOnsetS.get? e.src = some tw ∧ tw ≤ f.onsetS + temporalTolS

theorem SourceEdge.against (h : SourceEdge est args e) (he : e ∈ (runPass est args).edges) :
    EvidenceAgainst est args (stableWorkload e.src) e := by
  obtain ⟨tw, tv, htw, htv, hle⟩ := h.stormed
  obtain ⟨f, hf, hpod, honset⟩ := finding_of_onset est htv
  exact ⟨he, rfl, h.write_mem, h.sound.coupled, h.dominant, f, hf, hpod, tw, htw, honset ▸ hle⟩

/-! ## Promotion -/

theorem mem_sortedSet {l : List Workload} {w : Workload} : w ∈ sortedSet l ↔ w ∈ l := by
  unfold sortedSet
  rw [mem_sortOn, List.mem_dedup]

/-- The victims of a case are other workloads than its root. -/
theorem not_mem_caseVictims (graph : CausalGraph) (root : Workload) : root ∉ caseVictims graph root := by
  unfold caseVictims
  dsimp only
  split <;> simp [mem_sortedSet]

theorem mem_caseMotif {graph : CausalGraph} {e : Edge} (he : e ∈ graph.edges) :
    (stableWorkload e.src, stableWorkload e.dst) ∈ caseMotif graph := by
  unfold caseMotif
  rw [mem_sortOn]
  exact List.mem_map_of_mem he

/-- What a promoted fingerprint says of its graph: it blames the workload of the first-ranked pod, which a
    source edge leaves. -/
theorem fingerprint_spec {graph : CausalGraph} {fp : CaseKey} (h : fingerprint cfg graph = some fp) :
    ∃ top rest, graph.rootCauseRanking = top :: rest ∧ BlamesSource fp (stableWorkload top.pod) ∧
      ∃ e ∈ graph.edges, stableWorkload e.src = stableWorkload top.pod ∧ Evidence.write ∈ e.evidence := by
  unfold fingerprint at h
  split at h
  · exact absurd h (by simp)
  · rename_i top rest hrank
    dsimp only at h
    split at h
    · exact absurd h (by simp)
    · rename_i hany
      split at h
      · exact absurd h (by simp)
      · rename_i hvict
        obtain rfl := Option.some.inj h
        -- the root owns an edge with source evidence
        obtain ⟨e, he, hsrc⟩ := List.any_eq_true.mp (Bool.not_eq_false _ ▸ hany)
        rw [decide_eq_true_eq] at hsrc
        obtain ⟨ev, hev, hmem⟩ := List.any_eq_true.mp hsrc.2
        have hwrite : ev = .write := by simpa [sourceEvidence] using hmem
        refine ⟨top, rest, hrank, ⟨rfl, hvict, not_mem_caseVictims graph _, ?_⟩, e, he, hsrc.1, hwrite ▸ hev⟩
        exact ⟨_, mem_caseMotif he, hsrc.1⟩

/-- **A promoted pass has evidence against the stressor it names.** -/
theorem fingerprint_aggressor {fp : CaseKey} (h : fingerprint cfg (runPass est args) = some fp) :
    ∃ s, BlamesSource fp s ∧ ∃ e, EvidenceAgainst est args s e := by
  obtain ⟨top, _, _, hblames, e, he, hsrc, hwrite⟩ := fingerprint_spec h
  rw [← hsrc] at hblames
  refine ⟨stableWorkload e.src, hblames, e, ?_⟩
  rcases passEdges_spec he with hb | hs
  · exact absurd hwrite hb.write_not_mem
  · exact hs.against he

/-! ## Folding keeps the stressor -/

theorem jaccard_le_one {α : Type} [DecidableEq α] (a b : Finset α) : jaccard a b ≤ 1 := by
  unfold jaccard
  split
  · exact le_rfl
  · apply div_le_one_of_le₀
    · exact_mod_cast Finset.card_le_card (Finset.inter_subset_union)
    · positivity

theorem jaccard_singleton_ne {α : Type} [DecidableEq α] {x y : α} (h : x ≠ y) :
    jaccard {x} ({y} : Finset α) = 0 := by
  have hinter : ({x} : Finset α) ∩ {y} = ∅ := by
    rw [← Finset.disjoint_iff_inter_eq_empty, Finset.disjoint_singleton]
    exact h
  unfold jaccard
  rw [if_neg (by simp), hinter]
  simp

/-- Victims and motif together contribute at most 0.8. -/
theorem stressor_of_sim {F G : CaseKey} {s t : Workload} (hF : F.stressors = [s]) (hG : G.stressors = [t])
    (h : 8 / 10 < caseSim F G) : s = t := by
  by_contra hne
  unfold caseSim at h
  split at h
  · exact absurd h (by norm_num)
  · have hzero : jaccard F.stressors.toFinset G.stressors.toFinset = 0 := by
      rw [hF, hG]
      exact jaccard_singleton_ne hne
    have hvict := jaccard_le_one F.victims.toFinset G.victims.toFinset
    have hmotif := jaccard_le_one F.motif.toFinset G.motif.toFinset
    rw [hzero] at h
    linarith

/-! ## Runs -/

/-- Every stored prototype blames a source. -/
def AllBlameSources (cases : Dict CaseId CaseRow) : Prop :=
  ∀ id row, cases.get? id = some row → ∃ s, BlamesSource row.key s

/-- A row after a promotion is the new fingerprint's, or has the prototype it had before. -/
theorem storeCase_key {cases : Dict CaseId CaseRow} {ts : ℚ} {lead : Option ℚ} {fp : CaseKey} {tag : CaseTag}
    {id : CaseId} {row : CaseRow} (h : (storeCase ts lead fp tag cases).get? id = some row) :
    (cases.get? id = none ∧ tag.register ≠ .recurrence ∧ row.key = fp) ∨
      ∃ old, cases.get? id = some old ∧ row.key = old.key := by
  unfold storeCase at h
  split at h
  · split at h
    · rename_i old hold
      rw [Dict.get?_set] at h
      split at h
      · rename_i hid
        obtain rfl := Option.some.inj h
        exact Or.inr ⟨old, hid ▸ hold, rfl⟩
      · exact Or.inr ⟨row, h, rfl⟩
    · exact Or.inr ⟨row, h, rfl⟩
  · rename_i hreg
    split at h
    · exact Or.inr ⟨row, h, rfl⟩
    · rename_i hnew
      rw [Dict.get?_set] at h
      split at h
      · rename_i hid
        obtain rfl := Option.some.inj h
        exact Or.inl ⟨hid ▸ hnew, hreg, rfl⟩
      · exact Or.inr ⟨row, h, rfl⟩

/-- **Step.** A promotion from a source-rooted verdict keeps every prototype blaming a source. -/
theorem AllBlameSources.step {m : Memory} {c : ObserveCall} (h : AllBlameSources m.cases) :
    AllBlameSources (observeStep cfg sha1 m c).cases := by
  intro id row hrow
  cases hfp : fingerprint cfg c.graph with
  | none =>
      rw [observeStep_cases_none hfp] at hrow
      exact h id row hrow
  | some fp =>
      rw [observeStep_cases_some hfp] at hrow
      rcases storeCase_key hrow with ⟨-, -, hkey⟩ | ⟨old, hold, hkey⟩
      · obtain ⟨top, -, -, hblames, -⟩ := fingerprint_spec hfp
        exact ⟨stableWorkload top.pod, hkey ▸ hblames⟩
      · obtain ⟨s, hblames⟩ := h id old hold
        exact ⟨s, hkey ▸ hblames⟩

theorem allBlameSources_stateAt {start : Memory} (hstart : start.cases = ∅) (calls : List ObserveCall) (i : ℕ) :
    AllBlameSources (stateAt (observeStep cfg sha1) start calls i).cases := by
  refine stateAt_inv (I := fun m : Memory => AllBlameSources m.cases) ?_ ?_ i
  · intro id row hrow
    rw [hstart] at hrow
    exact absurd hrow (by simp)
  · intro m c _ hm
    exact hm.step

/-- The row is inserted by the call, or matched by it as a recurrence. -/
def Touches (cfg : MemoryConfig) (sha1 : CaseKey → CaseId) (m : Memory) (c : ObserveCall) (id : CaseId)
    (row : CaseRow) : Prop :=
  (observeStep cfg sha1 m c).cases.get? id = some row ∧
    (m.cases.get? id = none ∨
      ∃ tag, observeTag cfg sha1 m c = some tag ∧ tag.register = .recurrence ∧ tag.caseId = id)

/-- A row touched by a pass blames the workload that the pass has evidence against. -/
theorem Touches.evidence {m : Memory} {c : ObserveCall} {id : CaseId} {row : CaseRow}
    (h : Touches cfg sha1 m c id row) (hmerge : 8 / 10 < cfg.tauMerge) (hall : AllBlameSources m.cases)
    (hgraph : c.graph = runPass est args) : ∃ s, BlamesSource row.key s ∧
    ∃ e, EvidenceAgainst est args s e := by
  obtain ⟨hrow, htouch⟩ := h
  have hpos : 0 < cfg.tauMerge := hmerge.trans' (by norm_num)
  cases hfp : fingerprint cfg c.graph with
  | none =>
      -- nothing is promoted, so nothing is touched
      rw [observeStep_cases_none hfp] at hrow
      rcases htouch with hnone | ⟨tag, htag, -⟩
      · rw [hnone] at hrow
        exact absurd hrow (by simp)
      · rw [observeTag_eq, hfp] at htag
        exact absurd htag (by simp)
  | some fp =>
      obtain ⟨s, hblames, e, hev⟩ := fingerprint_aggressor (hgraph ▸ hfp)
      rw [observeStep_cases_some hfp] at hrow
      rcases htouch with hnone | ⟨tag, htag, hrec, rfl⟩
      · rcases storeCase_key hrow with ⟨-, -, hkey⟩ | ⟨old, hold, -⟩
        · exact ⟨s, hkey ▸ hblames, e, hev⟩
        · rw [hnone] at hold
          exact absurd hold (by simp)
      · rw [observeTag_eq, hfp] at htag
        obtain rfl := Option.some.inj htag
        rcases tagFor_cases hpos sha1 m.cases fp with ⟨-, -, near, hnear, hsim⟩ | ⟨hnot, -⟩
        · have hkey : row.key = near.key := by
            rw [storeCase_recurrence hrec hnear, Dict.get?_set, if_pos rfl] at hrow
            exact (Option.some.inj hrow) ▸ rfl
          obtain ⟨t, hold⟩ := hall _ near hnear
          -- the nearest case names the same stressor
          obtain rfl := stressor_of_sim hblames.stressor hold.stressor (hmerge.trans_le hsim)
          exact ⟨s, hkey ▸ hold, e, hev⟩
        · exact absurd hrec hnot

/-- **The library never learns a victim as the aggressor.** Over every run from an empty library of calls on
    outputs of `runPass`, whatever their breach lists and for every hash, with a merge threshold above 0.8:
    every case row that a pass inserts or matches as a recurrence blames, for a non-empty set of other
    workloads and along a motif that leaves it, a workload against which that same pass has a source edge. -/
theorem library_blames_aggressors (cfg : MemoryConfig) (hmerge : 8 / 10 < cfg.tauMerge)
    (sha1 : CaseKey → CaseId) (start : Memory) (hstart : start.cases = ∅) (calls : List ObserveCall) :
    ∀ i c est args, calls[i]? = some c → c.graph = runPass est args → ∀ id row,
      Touches cfg sha1 (stateAt (observeStep cfg sha1) start calls i) c id row →
      ∃ s, BlamesSource row.key s ∧ ∃ e, EvidenceAgainst est args s e := by
  intro i c est args _ hgraph id row htouch
  exact htouch.evidence hmerge (allBlameSources_stateAt hstart calls i) hgraph

/-- The first tenant's storm opens a case. -/
theorem tenantCall_opens_case :
    ((observeStep MemoryConfig.default caseHash Memory.empty
      (tenantCall "tenant-29f14be7fe9ed69e-7c9d4-bbb22" 5)).cases.get? 0x6f57482c2c9c44f5#64).isSome := by
  decide +kernel

theorem library_blames_aggressors_tenant :
    ∃ row, Touches MemoryConfig.default caseHash Memory.empty
      (tenantCall "tenant-29f14be7fe9ed69e-7c9d4-bbb22" 5)
        0x6f57482c2c9c44f5#64 row ∧
      ∃ s, BlamesSource row.key s ∧
        ∃ e, EvidenceAgainst numericEstimators (tenantArgs "tenant-29f14be7fe9ed69e-7c9d4-bbb22") s e := by
  obtain ⟨row, hrow⟩ := Option.isSome_iff_exists.mp tenantCall_opens_case
  have htouch : Touches MemoryConfig.default caseHash Memory.empty
      (tenantCall "tenant-29f14be7fe9ed69e-7c9d4-bbb22" 5) 0x6f57482c2c9c44f5#64 row := ⟨hrow, Or.inl rfl⟩
  exact ⟨row, htouch, library_blames_aggressors MemoryConfig.default
    (by decide +kernel) caseHash Memory.empty rfl
    tenantCalls 0 _ numericEstimators (tenantArgs "tenant-29f14be7fe9ed69e-7c9d4-bbb22") rfl rfl _ row htouch⟩

end EdgeCausal
