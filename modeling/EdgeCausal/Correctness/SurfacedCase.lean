import EdgeCausal.Correctness.Aggressor
import EdgeCausal.Correctness.MergedVerdict

/-!
# `Correctness.SurfacedCase` — whose case the merged graph carries

The merged graph takes its case from the signal that owns its root: the one that tags the first edge leaving the
first-ranked pod. That signal promoted the case from the ranking of its own pass, over accepted edges only, so
the case blames the workload that pass ranks first (`surfaced_case`). The merged ranking runs over held edges
and over all signals, and may put another workload first.
-/

namespace EdgeCausal

open Lib

/-! ## The stressor of a case -/

section Call
variable (cfg : MemoryConfig) (sha1 : CaseKey → CaseId) (m : Memory) (c : ObserveCall)

/-- The stressors of the case a call is told: those it fingerprints, for a fold; else those stored under the
    case's id when the call is done. -/
def caseStressors (tag : CaseTag) : Option (List Workload) :=
  match tag.register with
  | .recurrence => (fingerprint cfg c.graph).map CaseKey.stressors
  | _ => ((observeStep cfg sha1 m c).cases.get? tag.caseId).map fun row => row.key.stressors

variable {cfg sha1 m c}

/-- A case that is folded, or stored under a free id, has the stressors of the pass. -/
theorem caseStressors_of_promoted {fp : CaseKey} (h : fingerprint cfg c.graph = some fp)
    (hfree : (tagFor cfg sha1 m.cases fp).register = .recurrence ∨
      m.cases.get? (tagFor cfg sha1 m.cases fp).caseId = none) :
    caseStressors cfg sha1 m c (tagFor cfg sha1 m.cases fp) = some fp.stressors := by
  by_cases hrec : (tagFor cfg sha1 m.cases fp).register = .recurrence
  · unfold caseStressors
    rw [hrec]
    dsimp only
    rw [h]
    rfl
  · have hcases : (observeStep cfg sha1 m c).cases.get? (tagFor cfg sha1 m.cases fp).caseId
        = some ⟨fp, 1, c.ts, c.ts, leadTime c.graph, some (tagFor cfg sha1 m.cases fp).family⟩ := by
      rw [observeStep_cases_some h, storeCase_insert hrec (hfree.resolve_left hrec), Dict.get?_set, if_pos rfl]
    unfold caseStressors
    rw [hcases]
    split
    · rename_i hreg
      exact absurd hreg hrec
    · rfl

end Call

/-! ## The case of a merged graph -/

section Pass
variable (cfgOf : Signal → MemoryConfig) (sha1 : CaseKey → CaseId) (mems : Memories)
  (pass : Dict Signal ObserveCall) (primary : Option Signal)

/-- What a pass over the signals serves. -/
abbrev mergedBy : MergedGraph := mergeGraphs (observePass cfgOf sha1 mems pass).2 primary

/-- The edge by which a signal owns the root: the first one leaving the first-ranked pod. -/
def OwnsRoot (merged : MergedGraph) (sig : Signal) (top : RankEntry) (s : ServedEdge) : Prop :=
  merged.rootCauseRanking.head? = some top ∧ merged.edges.find? (fun s => s.edge.src = top.pod) = some s ∧
    s.signal = some sig

/-- The surfaced case is the root's: in the memory of the signal that owns the root its stressor is the workload
    of the first-ranked pod. -/
def CaseOfRoot : Prop :=
  ∀ tag, (mergedBy cfgOf sha1 mems pass primary).info.case = some tag →
    ∃ sig top s c, OwnsRoot (mergedBy cfgOf sha1 mems pass primary) sig top s ∧ pass.get? sig = some c ∧
      caseStressors (cfgOf sig) sha1 (mems sig) c tag = some [stableWorkload top.pod]

/-- The surfaced case is that of the signal owning the root. The owner accepts or holds the edge it owns the
    root by; it promoted the case in this pass against the workload `own` that its own pass ranks first, and a
    source edge of the pass leaves that workload. Unless the id was taken by another case, this is the stressor
    of the case. -/
def CaseOfOwner : Prop :=
  ∀ tag, (mergedBy cfgOf sha1 mems pass primary).info.case = some tag →
    ∃ sig top s c own, OwnsRoot (mergedBy cfgOf sha1 mems pass primary) sig top s ∧ pass.get? sig = some c ∧
      (s.edge ∈ c.graph.edges ∨ Holds (cfgOf sig) (mems sig) c (· ≤ ·) s.edge) ∧
      c.graph.rootCauseRanking.head? = some own ∧
      (∃ e ∈ c.graph.edges, stableWorkload e.src = stableWorkload own.pod ∧ Evidence.write ∈ e.evidence) ∧
      observeTag (cfgOf sig) sha1 (mems sig) c = some tag ∧
      (fingerprint (cfgOf sig) c.graph).map CaseKey.stressors = some [stableWorkload own.pod] ∧
      (tag.register = .recurrence ∨ (mems sig).cases.get? tag.caseId = none →
        caseStressors (cfgOf sig) sha1 (mems sig) c tag = some [stableWorkload own.pod])

end Pass

/-- The surfaced case is the tag of the signal owning the root, which rendered the edge it owns the root by. -/
theorem owner_of_case {cfgOf : Signal → MemoryConfig} {sha1 : CaseKey → CaseId} {mems : Memories}
    {pass : Dict Signal ObserveCall} {primary : Option Signal} {tag : CaseTag}
    (htag : (mergedBy cfgOf sha1 mems pass primary).info.case = some tag) :
    ∃ sig top s c s', OwnsRoot (mergedBy cfgOf sha1 mems pass primary) sig top s ∧ pass.get? sig = some c ∧
      s' ∈ (observe (cfgOf sig) sha1 (mems sig) c.graph c.vectors c.witness c.ts c.now).2.edges ∧
      s.edge = s'.edge ∧
      observeTag (cfgOf sig) sha1 (mems sig) c = some tag := by
  have hcase : ((truthy (activeSignal (mergedBy cfgOf sha1 mems pass primary).edges
      (mergedBy cfgOf sha1 mems pass primary).rootCauseRanking)).bind
        (observePass cfgOf sha1 mems pass).2.get?).bind
        ServedGraph.case = some tag := htag
  obtain ⟨g, hg, hgcase⟩ := Option.bind_eq_some_iff.mp hcase
  obtain ⟨sig, hsig, hget⟩ := Option.bind_eq_some_iff.mp hg
  have hactive : activeSignal (mergedBy cfgOf sha1 mems pass primary).edges
      (mergedBy cfgOf sha1 mems pass primary).rootCauseRanking = some sig :=
        (Option.filter_eq_some_iff.mp hsig).1
  -- the owner is the tag of the first edge leaving the root
  cases hrank : (mergedBy cfgOf sha1 mems pass primary).rootCauseRanking with
  | nil =>
      rw [hrank] at hactive
      exact absurd hactive (by simp [activeSignal])
  | cons top rest =>
      rw [hrank] at hactive
      obtain ⟨s, hfind, hsignal⟩ := Option.bind_eq_some_iff.mp hactive
      obtain ⟨sig', c, hc, s', hs', heq⟩ := mem_mergedEdges.mp (List.mem_of_find?_eq_some hfind)
      -- rendered edges come untagged, so the tag names the signal that rendered the edge
      have hsame : sig' = sig := by
        have huntagged : s'.signal = none := render_untagged (mem_observe_edges hs')
        rw [heq] at hsignal
        unfold tagEdge at hsignal
        dsimp only at hsignal
        rw [huntagged] at hsignal
        exact Option.some.inj hsignal
      subst hsame
      have hserved : g = (observe (cfgOf sig') sha1 (mems sig') c.graph c.vectors c.witness c.ts c.now).2 := by
        unfold observePass at hget
        dsimp only at hget
        rw [Dict.get?_mapVals, hc] at hget
        exact (Option.some.inj hget).symm
      have hobserved : observeTag (cfgOf sig') sha1 (mems sig') c = some tag := by
        unfold observeTag
        rw [← hserved]
        exact hgcase
      have hedge : s.edge = s'.edge := by
        rw [heq]
        rfl
      exact ⟨sig', top, s, c, s', ⟨by rw [hrank]; rfl, hfind, hsignal⟩, hc, hs', hedge, hobserved⟩

/-- **The surfaced case belongs to the owner of the root.** For all memories of the signals and all calls of a
    pass. -/
theorem surfaced_case (cfgOf : Signal → MemoryConfig) (sha1 : CaseKey → CaseId) (mems : Memories)
    (pass : Dict Signal ObserveCall) (primary : Option Signal) : CaseOfOwner cfgOf sha1 mems pass primary := by
  intro tag htag
  obtain ⟨sig, top, s, c, s', howns, hc, hs', hedge, hobserved⟩ := owner_of_case htag
  -- its pass promoted the case
  have hpromoted := hobserved
  rw [observeTag_eq] at hpromoted
  obtain ⟨fp, hfp, rfl⟩ := Option.map_eq_some_iff.mp hpromoted
  obtain ⟨own, others, hown, hblames, hsource⟩ := fingerprint_spec hfp
  refine ⟨sig, top, s, c, own, howns, hc, ?_, ?_, hsource, hobserved, ?_, ?_⟩
  · rw [hedge]
    exact mem_observe_cases hs'
  · rw [hown]
    rfl
  · rw [hfp]
    exact congrArg some hblames.stressor
  · intro hfree
    rw [← hblames.stressor]
    exact caseStressors_of_promoted hfp hfree

/-! ### A remembered aggressor -/

/-- The signal vectors of three storage pods, one of which stalls. -/
def stalls (stalled : Pod) : Dict Pod Series :=
  Dict.ofList (["log-archiver-6d-x1", "cooling-monitor-59-z3", "timescaledb-0-y2"].map fun p =>
    (p, if p = stalled then List.replicate 20 0 ++ List.replicate 6 5 else List.replicate 26 0))

/-- One pod floods the disk it shares with the pod that stalls. -/
def floodArgs (source stalled : Pod) : PassArgs where
  vectors := stalls stalled
  witness := ⟨[], [], [(source, stalled)], []⟩
  sloBreach := none
  caps := ∅
  window := none
  writeVectors := some (Dict.ofList [(source, List.replicate 20 0 ++ List.replicate 6 500)])
  baselines := none
  recent := none

/-- The pass over the disk signal. -/
def floodCall (source stalled : Pod) (ts : ℚ) : Dict Signal ObserveCall :=
  Dict.ofList [("psi_io",
    { graph := runPass numericEstimators (floodArgs source stalled)
      vectors := stalls stalled
      witness := some (floodArgs source stalled).witness
      ts := ts
      now := ts })]

/-- The configuration of every signal. -/
def defaultFor (sig : Signal) : MemoryConfig := { MemoryConfig.default with signal := sig }

/-- The memory of a storm in which the archiver stalled the monitor. -/
def afterStorm : Memories :=
  (observePass defaultFor caseHash (fun _ => Memory.empty)
    (floodCall "log-archiver-6d-x1" "cooling-monitor-59-z3" 5)).1

/-- Now the monitor stalls the database. -/
def secondStorm : Dict Signal ObserveCall := floodCall "cooling-monitor-59-z3" "timescaledb-0-y2" 10

/-- A memory in which the case of the second storm finds its id taken. -/
def takenId : Memories := fun sig =>
  match (secondStorm.get? sig).bind fun c => fingerprint (defaultFor sig) c.graph with
  | some fp => { Memory.empty with
      cases := Dict.ofList [(caseHash fp, ⟨⟨["plc-gateway"], ["historian"], sig, none, []⟩, 1, 0, 0, none,
        none⟩)] }
  | none => Memory.empty

/-- The root that is served, and the stressors of the case that is surfaced from the disk signal. -/
def verdictOf (mems : Memories) (pass : Dict Signal ObserveCall) : Option Pod × Option (List Workload) :=
  let merged := mergedBy defaultFor caseHash mems pass (some "psi_io")
  (merged.rootCauseRanking.head?.map RankEntry.pod,
    (pass.get? "psi_io").bind fun c => merged.info.case.bind fun tag =>
      caseStressors (defaultFor "psi_io") caseHash (mems "psi_io") c tag)

theorem verdictOf_secondStorm :
    verdictOf afterStorm secondStorm = (some "log-archiver-6d-x1", some ["cooling-monitor"]) ∧
      verdictOf takenId secondStorm = (some "cooling-monitor-59-z3", some ["plc-gateway"]) := by
  decide +kernel

theorem verdictOf_of_caseOfRoot {mems : Memories} {source stalled : Pod} {ts : ℚ} {root : Pod}
    {ws : List Workload}
    (h : CaseOfRoot defaultFor caseHash mems (floodCall source stalled ts) (some "psi_io"))
    (hv : verdictOf mems (floodCall source stalled ts) = (some root, some ws)) : ws =
    [stableWorkload root] := by
  obtain ⟨hroot, hws⟩ := Prod.mk.inj hv
  obtain ⟨c, hc, hbind⟩ := Option.bind_eq_some_iff.mp hws
  obtain ⟨tag, htag, hstressors⟩ := Option.bind_eq_some_iff.mp hbind
  obtain ⟨sig, top, s, c', ⟨hhead, -, -⟩, hc', hown⟩ := h tag htag
  -- the pass has one signal
  obtain ⟨rfl, -⟩ := Prod.mk.inj (List.mem_singleton.mp (Dict.mem_of_get?_ofList hc'))
  obtain rfl := Option.some.inj (hc.symm.trans hc')
  have htop : top.pod = root := by
    rw [hhead] at hroot
    exact Option.some.inj hroot
  rw [hown, htop] at hstressors
  exact (Option.some.inj hstressors).symm

/-- The remembered edge puts the archiver in front of the monitor, and the case blames the monitor; where its id
    is taken, the case that is stored blames neither. -/
theorem secondStorm_case_not_root :
    ¬ CaseOfRoot defaultFor caseHash afterStorm secondStorm (some "psi_io") ∧
      ¬ CaseOfRoot defaultFor caseHash takenId secondStorm (some "psi_io") := by
  obtain ⟨hstorm, htaken⟩ := verdictOf_secondStorm
  refine ⟨fun h => ?_, fun h => ?_⟩
  · exact absurd (verdictOf_of_caseOfRoot h hstorm) (by decide +kernel)
  · exact absurd (verdictOf_of_caseOfRoot h htaken) (by decide +kernel)

end EdgeCausal
