import EdgeCausal.Correctness.ForwardImpact
import EdgeCausal.Correctness.Render
import EdgeCausal.Correctness.RowHistory
import EdgeCausal.Correctness.Silence

/-!
# `Correctness.HeldRoot` — when a remembered edge cannot win the root

The served ranking is computed over accepted and held edges alike. A held edge can carry blame in two ways: a
walk along it reaches a finding, or it is all that puts a finding on the graph, where the finding then
explains itself. Both can be read off the memory before the pass and the pass's own calls (`HeldInert`).
While neither happens, the first-ranked pod is the source of an edge the pass itself accepted, over runs of
any length and whatever was remembered (`run_root_live`).

`observePass` is one pass over the signals with arbitrary graphs; the service's loop is an instance of it
(`servicePass_eq_observePass`).
-/

namespace EdgeCausal

open Lib

/-! ## Passes over the signals -/

/-- One pass: the memory of every signal that has a call observes it, the others stay as they are. -/
def observePass (cfgOf : Signal → MemoryConfig) (sha1 : CaseKey → CaseId) (mems : Memories)
    (pass : Dict Signal ObserveCall) : Memories × Dict Signal ServedGraph :=
  (fun sig => match pass.get? sig with
    | some c => observeStep (cfgOf sig) sha1 (mems sig) c
    | none => mems sig,
   pass.mapVals fun sig c =>
    (observe (cfgOf sig) sha1 (mems sig) c.graph c.vectors c.witness c.ts c.now).2)

/-- The memories after the first `i` passes. -/
def memoriesAt (cfgOf : Signal → MemoryConfig) (sha1 : CaseKey → CaseId) (mems : Memories)
    (passes : List (Dict Signal ObserveCall)) (i : ℕ) : Memories :=
  stateAt (fun mems pass => (observePass cfgOf sha1 mems pass).1) mems passes i

/-! ## What a call holds -/

section Call
variable (cfg : MemoryConfig) (m : Memory) (c : ObserveCall)

/-- The row that a call leaves under a key whose pair its graph does not join. -/
structure Remembers (k : EdgeKey) (row : EdgeRow) : Prop where
  stored : c.rowAfter cfg k (m.edgeMemory.get? k) = some row
  holdable : holdable cfg k row = true
  absent : frozenPair k.1 k.2.1 ∉ livePairs c.graph.edges

/-- A remembered row, as an edge between the pods that carry its workloads now. It `beats` every other
    remembered row of its pair. -/
structure HoldsRow (beats : ℚ → ℚ → Prop) (k : EdgeKey) (row : EdgeRow) (s : ServedEdge) : Prop where
  remembers : Remembers cfg m c k row
  rendered : heldEdge (workloadPod c.vectors) c.now (k, row) = some s
  beats : ∀ k' row', k' ≠ k → frozenPair k'.1 k'.2.1 = frozenPair k.1 k.2.1 → Remembers cfg m c k' row' →
    beats row'.confidence row.confidence

/-- The call holds the edge. -/
def Holds (beats : ℚ → ℚ → Prop) (e : Edge) : Prop :=
  ∃ k row s, HoldsRow cfg m c beats k row s ∧ s.edge = e

variable {cfg m c} {sha1 : CaseKey → CaseId} {k : EdgeKey} {row : EdgeRow} {s : ServedEdge} {e : Edge}

/-- The remembered rows are the rivals of their pair in the memory the call leaves. -/
theorem mem_rivals_iff_remembers {pair : Workload × Workload} (hfree : pair ∉ livePairs c.graph.edges) :
    (k, row) ∈ rivals cfg (observeStep cfg sha1 m c).edgeMemory pair ↔
      Remembers cfg m c k row ∧ frozenPair k.1 k.2.1 = pair := by
  rw [mem_rivals, observeStep_get?]
  constructor
  · rintro ⟨hrow, rfl, hhold⟩
    exact ⟨⟨hrow, hhold, hfree⟩, rfl⟩
  · rintro ⟨h, rfl⟩
    exact ⟨h.stored, rfl, h.holdable⟩

/-- What a rendering adds to the accepted edges is held. -/
theorem holds_of_heldRows
    (hkr : (k, row) ∈ heldRows cfg (observeStep cfg sha1 m c).edgeMemory (livePairs c.graph.edges))
    (hs : heldEdge (workloadPod c.vectors) c.now (k, row) = some s) : Holds cfg m c (· ≤ ·) s.edge := by
  obtain ⟨hfree, hmax⟩ := mem_heldRows.mp hkr
  obtain ⟨hrem, -⟩ := (mem_rivals_iff_remembers hfree).mp (firstMax_mem hmax)
  refine ⟨k, row, s, ⟨hrem, hs, ?_⟩, rfl⟩
  intro k' row' _ hpair hrem'
  exact le_firstMax hmax (k', row') ((mem_rivals_iff_remembers hfree).mpr ⟨hrem', hpair⟩)

/-- A remembered row that is strictly the strongest of its pair is held. -/
theorem HoldsRow.mem_heldRows (h : HoldsRow cfg m c (· < ·) k row s) :
    (k, row) ∈ heldRows cfg (observeStep cfg sha1 m c).edgeMemory (livePairs c.graph.edges) := by
  rw [EdgeCausal.mem_heldRows]
  refine ⟨h.remembers.absent, ?_⟩
  have hown : (k, row) ∈ rivals cfg (observeStep cfg sha1 m c).edgeMemory (frozenPair k.1 k.2.1) :=
    (mem_rivals_iff_remembers h.remembers.absent).mpr ⟨h.remembers, rfl⟩
  cases hmax : firstMax (fun kr : EdgeKey × EdgeRow => kr.2.confidence)
      (rivals cfg (observeStep cfg sha1 m c).edgeMemory (frozenPair k.1 k.2.1)) with
  | none => exact absurd hown (by rw [firstMax_eq_none_iff.mp hmax]; simp)
  | some best =>
      obtain ⟨k', row'⟩ := best
      obtain ⟨hrem, hpair⟩ := (mem_rivals_iff_remembers h.remembers.absent).mp (firstMax_mem hmax)
      by_cases hk : k' = k
      · subst hk
        rw [Option.some.inj (hrem.stored.symm.trans h.remembers.stored)]
      · -- the best rival would be beaten by the row it beats
        exact absurd (le_firstMax hmax (k, row) hown) (not_le.mpr (h.beats k' row' hk hpair hrem))

/-- **What a call renders**: its accepted edges and what it holds, nothing else. -/
theorem mem_observe_cases (h : s ∈ (observe cfg sha1 m c.graph c.vectors c.witness c.ts c.now).2.edges) :
    s.edge ∈ c.graph.edges ∨ Holds cfg m c (· ≤ ·) s.edge := by
  have h' : s ∈ c.graph.edges.map (liveEdge cfg (observeStep cfg sha1 m c).edgeMemory) ++
      (heldRows cfg (observeStep cfg sha1 m c).edgeMemory (livePairs c.graph.edges)).filterMap
        (heldEdge (workloadPod c.vectors) c.now) := h
  rcases List.mem_append.mp h' with h' | h'
  · obtain ⟨e, he, rfl⟩ := List.mem_map.mp h'
    exact Or.inl he
  · obtain ⟨⟨k, row⟩, hkr, hs⟩ := List.mem_filterMap.mp h'
    exact Or.inr (holds_of_heldRows hkr hs)

/-- An accepted edge is rendered as live. -/
theorem accepted_rendered (he : e ∈ c.graph.edges) :
    ∃ s ∈ (observe cfg sha1 m c.graph c.vectors c.witness c.ts c.now).2.edges, s.edge = e ∧
      ∃ mark, s.mark = some mark ∧ mark.source = .live := by
  obtain ⟨row, hrow⟩ : ∃ row, c.rowAfter cfg (edgeKey cfg e) (m.edgeMemory.get? (edgeKey cfg e)) = some row :=
    rowAfter_isSome (Or.inr (Or.inr ⟨e, he, rfl⟩))
  rw [← observeStep_get? cfg sha1] at hrow
  refine ⟨liveEdge cfg (observeStep cfg sha1 m c).edgeMemory e, ?_, rfl, ?_⟩
  · exact List.mem_append_left _ (List.mem_map_of_mem he)
  · unfold liveEdge
    rw [hrow]
    exact ⟨_, rfl, rfl⟩

/-- A held edge is rendered. -/
theorem Holds.rendered (h : Holds cfg m c (· < ·) e) :
    ∃ s ∈ (observe cfg sha1 m c.graph c.vectors c.witness c.ts c.now).2.edges, s.edge = e := by
  obtain ⟨k, row, s, hrow, rfl⟩ := h
  refine ⟨s, ?_, rfl⟩
  exact List.mem_append_right _ (List.mem_filterMap.mpr ⟨(k, row), hrow.mem_heldRows, hrow.rendered⟩)

/-- What is held from an empty memory was seeded by the same call, without weight. -/
theorem Holds.weightless {beats : ℚ → ℚ → Prop} (h : Holds cfg Memory.empty c beats e) : e.r = 0 := by
  obtain ⟨k, row, s, hrow, rfl⟩ := h
  have hr : row.r = 0 := by
    have hstored := hrow.remembers.stored
    unfold ObserveCall.rowAfter at hstored
    rcases rowAfter_cases cfg c.graph.edges c.present c.witness c.ts k (Memory.empty.edgeMemory.get? k) with
      ⟨⟨e, he, hkey⟩, -⟩ | ⟨-, -, heq⟩ | ⟨-, -, -, heq⟩
    · -- a confirmed key has a live pair
      obtain rfl := hkey
      exact absurd (List.mem_map_of_mem he) hrow.remembers.absent
    · rw [heq] at hstored
      obtain ⟨seeded, hseeded, rfl⟩ := Option.map_eq_some_iff.mp hstored
      unfold seededRow at hseeded
      split at hseeded
      · obtain rfl := Option.some.inj hseeded
        rfl
      · exact absurd hseeded (by simp [Memory.empty])
    · rw [heq] at hstored
      exact absurd hstored (by simp [Memory.empty])
  obtain ⟨-, -, hround, -⟩ := heldEdge_eq_some hrow.rendered
  rw [hround, hr]
  decide +kernel

end Call

/-! ## What a pass serves -/

section Pass
variable (cfgOf : Signal → MemoryConfig) (mems : Memories) (pass : Dict Signal ObserveCall)

/-- One of the calls accepted the edge. -/
def Accepts (e : Edge) : Prop := ∃ sig c, pass.get? sig = some c ∧ e ∈ c.graph.edges

/-- One of the calls accepted the edge, or holds it. -/
def Carries (beats : ℚ → ℚ → Prop) (e : Edge) : Prop :=
  Accepts pass e ∨ ∃ sig c, pass.get? sig = some c ∧ Holds (cfgOf sig) (mems sig) c beats e

/-- One of the calls found the pod anomalous. -/
def Finds (n : Pod) : Prop := ∃ sig c, pass.get? sig = some c ∧ ∃ f ∈ c.graph.findings, f.pod = n

/-- An edge accepted in the pass leaves the pod. -/
def LiveSource (n : Pod) : Prop := ∃ e, Accepts pass e ∧ e.src = n

/-- **Held edges carry no blame**: from a pod that no accepted edge leaves no walk reaches a finding, and a
    finding that some edge leaves is left by an accepted one or pointed at. -/
structure HeldInert : Prop where
  silent : ∀ n, ¬ LiveSource pass n → ∀ v, Finds pass v → ¬ Reaches (Carries cfgOf mems pass (· ≤ ·)) n v
  first : ∀ v, Finds pass v → (∃ e, Carries cfgOf mems pass (· ≤ ·) e ∧ e.src = v) →
    LiveSource pass v ∨ ∃ e, Carries cfgOf mems pass (· < ·) e ∧ e.dst = v

variable {cfgOf mems pass} {sha1 : CaseKey → CaseId} {s : ServedEdge} {e : Edge}

/-- A backbone without weight carries no blame, when every finding is an end of an accepted edge. -/
theorem heldInert_of_weightless (hr : ∀ e, Carries cfgOf mems pass (· ≤ ·) e → Accepts pass e ∨ e.r = 0)
    (hends : ∀ v, Finds pass v → ∃ e, Accepts pass e ∧
    (e.src = v ∨ e.dst = v)) : HeldInert cfgOf mems pass := by
  constructor
  · intro n hn v _ hreach
    obtain ⟨e, he, hsrc, hweight⟩ := hreach.leaves
    exact hn ⟨e, (hr e he).resolve_right hweight, hsrc⟩
  · intro v hv _
    obtain ⟨e, he, hsrc | hdst⟩ := hends v hv
    · exact Or.inl ⟨e, he, hsrc⟩
    · exact Or.inr ⟨e, Or.inl he, hdst⟩

theorem mem_mergedEdges : s ∈ mergedEdges (observePass cfgOf sha1 mems pass).2 ↔
    ∃ sig c, pass.get? sig = some c ∧
      ∃ s' ∈ (observe (cfgOf sig) sha1 (mems sig) c.graph c.vectors c.witness c.ts c.now).2.edges,
        s = tagEdge sig s' := by
  unfold mergedEdges observePass
  constructor
  · intro h
    obtain ⟨⟨sig, served⟩, hsg, hs⟩ := List.mem_flatMap.mp h
    obtain ⟨s', hs', rfl⟩ := List.mem_map.mp hs
    obtain ⟨⟨sig', c⟩, hc, heq⟩ := List.mem_map.mp hsg
    obtain ⟨rfl, rfl⟩ := Prod.mk.inj heq
    exact ⟨sig', c, Dict.get?_eq_some_iff.mpr hc, s', hs', rfl⟩
  · rintro ⟨sig, c, hc, s', hs', rfl⟩
    refine List.mem_flatMap.mpr ⟨(sig, _), ?_, List.mem_map_of_mem hs'⟩
    exact List.mem_map.mpr ⟨(sig, c), Dict.get?_eq_some_iff.mp hc, rfl⟩

/-- The served edges are carried. -/
theorem carries_of_merged (h : s ∈ mergedEdges (observePass cfgOf sha1 mems pass).2) :
    Carries cfgOf mems pass (· ≤ ·) s.edge := by
  obtain ⟨sig, c, hc, s', hs', rfl⟩ := mem_mergedEdges.mp h
  rcases mem_observe_cases hs' with ha | hh
  · exact Or.inl ⟨sig, c, hc, ha⟩
  · exact Or.inr ⟨sig, c, hc, hh⟩

/-- An accepted edge is served as live. -/
theorem Accepts.merged (cfgOf : Signal → MemoryConfig) (sha1 : CaseKey → CaseId) (mems : Memories)
    (h : Accepts pass e) : ∃ s ∈ mergedEdges (observePass cfgOf sha1 mems pass).2,
      s.edge = e ∧ ∃ mark, s.mark = some mark ∧ mark.source = .live := by
  obtain ⟨sig, c, hc, he⟩ := h
  obtain ⟨s, hs, hedge, hmark⟩ := accepted_rendered he
  exact ⟨tagEdge sig s, mem_mergedEdges.mpr ⟨sig, c, hc, s, hs, rfl⟩, hedge, hmark⟩

/-- A carried edge is served. -/
theorem Carries.merged (sha1 : CaseKey → CaseId) (h : Carries cfgOf mems pass (· < ·) e) :
    ∃ s ∈ mergedEdges (observePass cfgOf sha1 mems pass).2, s.edge = e := by
  rcases h with ha | ⟨sig, c, hc, hh⟩
  · obtain ⟨s, hs, hedge, -⟩ := ha.merged cfgOf sha1 mems
    exact ⟨s, hs, hedge⟩
  · obtain ⟨s, hs, hedge⟩ := hh.rendered
    exact ⟨tagEdge sig s, mem_mergedEdges.mpr ⟨sig, c, hc, s, hs, rfl⟩, hedge⟩

/-- A served finding is one of a call. -/
theorem finds_of_merged {f : ServedFinding} (h : f ∈ mergedFindings (observePass cfgOf sha1 mems pass).2) :
    Finds pass f.finding.pod := by
  unfold mergedFindings observePass at h
  obtain ⟨⟨sig, served⟩, hsg, hf⟩ := List.mem_flatMap.mp h
  obtain ⟨f', hf', rfl⟩ := List.mem_map.mp hf
  obtain ⟨⟨sig', c⟩, hc, heq⟩ := List.mem_map.mp hsg
  obtain ⟨rfl, rfl⟩ := Prod.mk.inj heq
  obtain ⟨g, hg, rfl⟩ := List.mem_map.mp hf'
  exact ⟨sig', c, Dict.get?_eq_some_iff.mpr hc, g, hg, rfl⟩

/-- The symptoms a merged ranking is seeded with are findings on the graph. -/
theorem mem_seedSet_onGraph {g : CGraph} {findings : List ServedFinding} {n : Pod}
    (h : n ∈ seedSet g (onGraphSeeds g findings)) (hne : onGraphSeeds g findings ≠ []) :
    n ∈ g.nodes ∧ ∃ f ∈ findings, f.finding.pod = n := by
  have hfilter : (onGraphSeeds g findings).filter (· ∈ g.nodes) = onGraphSeeds g findings := by
    unfold onGraphSeeds
    rw [List.filter_filter]
    simp
  unfold seedSet at h
  dsimp only at h
  rw [hfilter, if_neg hne] at h
  obtain ⟨hmem, hnode⟩ := List.mem_filter.mp h
  obtain ⟨f, hf, hpod⟩ := List.mem_map.mp hmem
  exact ⟨by simpa using hnode, f, hf, hpod⟩

/-- Every line of a merged ranking names a pod that reaches a finding along the served edges, or a finding
    on the graph that nothing points at. -/
theorem mergedRanking_reason {edges : List ServedEdge} {findings : List ServedFinding} {entry : RankEntry}
    (h : entry ∈ mergedRanking edges findings) :
    (∃ f ∈ findings, Reaches (· ∈ edges.map ServedEdge.edge) entry.pod f.finding.pod) ∨
      ((∃ f ∈ findings, f.finding.pod = entry.pod) ∧ entry.pod ∈ (servedGraph edges).nodes ∧
        (servedGraph edges).inDegree entry.pod = 0) := by
  unfold mergedRanking at h
  split at h
  · exact absurd h (by simp)
  · dsimp only at h
    split at h
    · exact absurd h (by simp)
    · rename_i hseeds
      -- a positive score comes from a symptom that is reached, or from the pod's own
      obtain ⟨-, hpos⟩ := explain_pos_of_ranked h
      rcases reaches_of_explain hpos with ⟨n, hn, hreach⟩ | ⟨hn, hdeg⟩
      · obtain ⟨-, f, hf, rfl⟩ := mem_seedSet_onGraph hn hseeds
        exact Or.inl ⟨f, hf, hreach⟩
      · obtain ⟨hnode, f, hf, hpod⟩ := mem_seedSet_onGraph hn hseeds
        exact Or.inr ⟨⟨f, hf, hpod⟩, hnode, hdeg⟩

/-- **Every ranked pod is a live source** when the held edges carry no blame. -/
theorem HeldInert.liveSource (h : HeldInert cfgOf mems pass) {entry : RankEntry}
    (hr : entry ∈ mergedRanking (mergedEdges (observePass cfgOf sha1 mems pass).2)
      (mergedFindings (observePass cfgOf sha1 mems pass).2)) : LiveSource pass entry.pod := by
  have hserved : ∀ e ∈ (mergedEdges (observePass cfgOf sha1 mems pass).2).map ServedEdge.edge,
      Carries cfgOf mems pass (· ≤ ·) e := by
    intro e he
    obtain ⟨s, hs, rfl⟩ := List.mem_map.mp he
    exact carries_of_merged hs
  by_contra hdead
  rcases mergedRanking_reason hr with ⟨f, hf, hreach⟩ | ⟨⟨f, hf, hpod⟩, hnode, hdeg⟩
  · exact h.silent entry.pod hdead f.finding.pod (finds_of_merged hf) (hreach.mono hserved)
  · have hfinds : Finds pass entry.pod := hpod ▸ finds_of_merged hf
    have hpointed : ∀ e ∈ (mergedEdges (observePass cfgOf sha1 mems pass).2).map ServedEdge.edge,
        e.dst ≠ entry.pod := by
      intro e he hdst
      exact (buildGraph_inDegree_pos.mpr ⟨e, he, hdst⟩).ne' hdeg
    -- on the graph and not pointed at, so some edge leaves it
    obtain ⟨e, he, hsrc | hdst⟩ := mem_nodes_buildGraph.mp hnode
    · rcases h.first entry.pod hfinds ⟨e, hserved e he, hsrc⟩ with hlive | ⟨e', he', hdst⟩
      · exact hdead hlive
      · obtain ⟨s, hs, rfl⟩ := he'.merged sha1
        exact hpointed s.edge (List.mem_map_of_mem hs) hdst
    · exact hpointed e he hdst

end Pass

/-! ## The root -/

/-- The first-ranked pod of a merged graph, if any, is the source of an edge that one of the calls accepted
    and that is served as live. -/
def RootIsLive (pass : Dict Signal ObserveCall) (merged : MergedGraph) : Prop :=
  ∀ top rest, merged.rootCauseRanking = top :: rest →
    ∃ s ∈ merged.edges, Accepts pass s.edge ∧ s.edge.src = top.pod ∧
      ∃ mark, s.mark = some mark ∧ mark.source = .live

/-- One pass. -/
theorem HeldInert.rootIsLive {cfgOf : Signal → MemoryConfig} {mems : Memories}
    {pass : Dict Signal ObserveCall} (h : HeldInert cfgOf mems pass) (sha1 : CaseKey → CaseId)
    (primary : Option Signal) :
    RootIsLive pass (mergeGraphs (observePass cfgOf sha1 mems pass).2 primary) := by
  intro top rest hrank
  have hmem : top ∈ mergedRanking (mergedEdges (observePass cfgOf sha1 mems pass).2)
      (mergedFindings (observePass cfgOf sha1 mems pass).2) := by
    show top ∈ (mergeGraphs (observePass cfgOf sha1 mems pass).2 primary).rootCauseRanking
    rw [hrank]
    exact List.mem_cons_self
  obtain ⟨e, he, hsrc⟩ := h.liveSource hmem
  obtain ⟨s, hs, rfl, hmark⟩ := he.merged cfgOf sha1 mems
  exact ⟨s, hs, he, hsrc, hmark⟩

/-! ## The service's loop -/

section Service
variable (est : Estimators) (sha1 : CaseKey → CaseId) (svc : ServiceConfig)

/-- The calls a pass of the service has made. -/
def PassRecord.calls (inp : PassInput) (cur : PassRecord) : Dict Signal ObserveCall :=
  Dict.ofList (cur.outputs.map fun out =>
    (out.1, ⟨out.2, inp.vectors out.1, some (inp.witness out.1), inp.ts, inp.now⟩))

/-- What the signals run so far have left: the memories and renderings of `observePass` on their calls. -/
def Observed (mems : Memories) (inp : PassInput) (cur : PassRecord) : Prop :=
  (cur.memories, cur.rendered) = observePass (configFor svc) sha1 mems (cur.calls inp)

/-- One more signal. -/
theorem signalPass_observed {mems : Memories} {inp : PassInput} {cur : PassRecord} {sig : Signal}
    (h : Observed sha1 svc mems inp cur) (hnew : (cur.calls inp).get? sig = none) :
    Observed sha1 svc mems inp (signalPass est sha1 svc inp cur sig) := by
  unfold signalPass
  split
  · exact h
  · obtain ⟨hmems, hrendered⟩ := Prod.mk.inj h
    -- the signal has not run yet, so its memory is the one the pass began with
    have hmem : cur.memories sig = mems sig := by
      rw [hmems]
      dsimp only
      rw [hnew]
    unfold Observed PassRecord.calls observePass
    dsimp only
    rw [hmem, List.map_append, List.map_singleton, Dict.ofList_concat, Dict.mapVals_set]
    refine Prod.ext ?_ ?_
    · funext sig'
      dsimp only
      rw [Dict.get?_set, Function.update_apply]
      by_cases hs : sig' = sig
      · subst hs
        rw [if_pos rfl, if_pos rfl]
        rfl
      · rw [if_neg hs, if_neg hs]
        exact congrFun hmems sig'
    · exact congrArg (fun d => Dict.set d sig _) hrendered

theorem signalPass_calls {inp : PassInput} {cur : PassRecord} {sig sig' : Signal} (hne : sig' ≠ sig)
    (hnew : (cur.calls inp).get? sig' = none) :
    ((signalPass est sha1 svc inp cur sig).calls inp).get? sig' = none := by
  unfold signalPass
  split
  · exact hnew
  · unfold PassRecord.calls at hnew ⊢
    rw [List.map_append, List.map_singleton, Dict.ofList_concat, Dict.get?_set, if_neg hne]
    exact hnew

/-- Any number of new signals. -/
theorem foldl_signalPass_observed {mems : Memories} {inp : PassInput} {sigs : List Signal} (hsig : sigs.Nodup)
    {cur : PassRecord} (h : Observed sha1 svc mems inp cur)
      (hnew : ∀ sig ∈ sigs, (cur.calls inp).get? sig = none) :
    Observed sha1 svc mems inp (sigs.foldl (signalPass est sha1 svc inp) cur) := by
  induction sigs generalizing cur with
  | nil => exact h
  | cons sig sigs ih =>
      rw [List.nodup_cons] at hsig
      refine ih hsig.2 (signalPass_observed est sha1 svc h (hnew sig List.mem_cons_self)) ?_
      intro sig' hmem
      exact signalPass_calls est sha1 svc (fun heq => hsig.1 (heq ▸ hmem))
        (hnew sig' (List.mem_cons_of_mem sig hmem))

/-- **The service is an instance**: with different signals, its pass is `observePass` on the calls it makes. -/
theorem servicePass_eq_observePass (hsig : svc.signals.Nodup) (mems : Memories) (inp : PassInput) :
    Observed sha1 svc mems inp (servicePass est sha1 svc mems inp) :=
  foldl_signalPass_observed est sha1 svc hsig rfl fun _ _ => rfl

/-- The first-ranked pod of a service pass whose held edges carry no blame. -/
theorem servicePass_root_live (hsig : svc.signals.Nodup) (mems : Memories) (inp : PassInput) :
    let cur := servicePass est sha1 svc mems inp
    HeldInert (configFor svc) mems (cur.calls inp) → RootIsLive (cur.calls inp) (cur.merged svc) := by
  intro cur hinert
  have hrendered : cur.rendered = (observePass (configFor svc) sha1 mems (cur.calls inp)).2 :=
    congrArg Prod.snd (servicePass_eq_observePass est sha1 svc hsig mems inp)
  unfold PassRecord.merged
  split
  · intro top rest hrank
    exact absurd hrank (by simp)
  · rw [hrendered]
    exact hinert.rootIsLive sha1 svc.signals.head?

end Service

/-! ## Runs -/

/-- **Remembered edges win no root while they carry no blame.** Over every run of passes from any memories,
    with any graphs, live pods and witnesses: when the held edges of every pass carry no blame, the
    first-ranked pod of every served graph is the source of an edge that the same pass accepted. -/
theorem run_root_live (cfgOf : Signal → MemoryConfig) (sha1 : CaseKey → CaseId) (mems : Memories)
    (primary : Option Signal) (passes : List (Dict Signal ObserveCall))
    (hinert : ∀ i pass, passes[i]? = some pass →
      HeldInert cfgOf (memoriesAt cfgOf sha1 mems passes i) pass) :
    ∀ i pass, passes[i]? = some pass →
      RootIsLive pass
        (mergeGraphs (observePass cfgOf sha1 (memoriesAt cfgOf sha1 mems passes i) pass).2 primary) := by
  intro i pass hpass
  exact (hinert i pass hpass).rootIsLive sha1 primary

/-! ### A seeded backbone -/

/-- Three storage pods; the archiver floods the database, and the collector is only on the same disk. -/
def floodPass : Dict Signal ObserveCall :=
  Dict.ofList [("psi_io",
    { graph := ⟨[⟨"timescaledb-0-y2", .burst, 20, 5, 1⟩], [stormEdge], [], [], 3, 1, 1⟩
      vectors := Dict.ofList [("log-archiver-6d-x1", [0]), ("timescaledb-0-y2", [0]), ("collector-7f-z3", [0])]
      witness := some ⟨[], [], pairs ["log-archiver-6d-x1", "timescaledb-0-y2", "collector-7f-z3"], []⟩
      ts := 10
      now := 10 })]

theorem floodPass_get? {sig : Signal} {c : ObserveCall} (h : floodPass.get? sig = some c) :
    c.graph.edges = [stormEdge] ∧ c.graph.findings.map Finding.pod = ["timescaledb-0-y2"] := by
  obtain ⟨-, rfl⟩ := Prod.mk.inj (List.mem_singleton.mp (Dict.mem_of_get?_ofList h))
  exact ⟨rfl, rfl⟩

theorem floodPass_accepts : Accepts floodPass stormEdge := ⟨"psi_io", _, rfl, List.mem_singleton_self _⟩

theorem floodPass_inert (cfgOf : Signal → MemoryConfig) :
    HeldInert cfgOf (fun _ => Memory.empty) floodPass := by
  refine heldInert_of_weightless ?_ ?_
  · rintro e (ha | ⟨sig, c, -, hh⟩)
    · exact Or.inl ha
    · exact Or.inr hh.weightless
  · rintro v ⟨sig, c, hc, f, hf, rfl⟩
    refine ⟨stormEdge, floodPass_accepts, Or.inr ?_⟩
    have hpod : f.pod ∈ c.graph.findings.map Finding.pod := List.mem_map_of_mem hf
    rw [(floodPass_get? hc).2] at hpod
    exact (List.mem_singleton.mp hpod).symm

theorem run_root_live_flood :
    RootIsLive floodPass (mergeGraphs (observePass (configFor idleService) (fun _ => 0)
      (memoriesAt (configFor idleService) (fun _ => 0) (fun _ => Memory.empty) [floodPass] 0) floodPass).2
      (some "psi_io")) :=
  run_root_live (configFor idleService) (fun _ => 0) (fun _ => Memory.empty) (some "psi_io") [floodPass] (by
    rintro (_ | i) pass hpass
    · obtain rfl := Option.some.inj hpass
      exact floodPass_inert (configFor idleService)
    · exact absurd hpass (by simp)) 0 floodPass rfl

/-! ### A held edge that wins -/

/-- A window in which only the archiver's signal may move. -/
def archiverInput (archiver : Series) (now : ℚ) : PassInput :=
  PassInput.ofWindow idleService
    (fun sig => if sig = "psi_io" then
        Dict.ofList [("log-archiver-6d-x1", archiver), ("timescaledb-0-y2", List.replicate 26 0)]
      else ∅)
    [] now now

/-- The archiver stalls alone at the end of the window. -/
def archiverBurst : PassInput := archiverInput (List.replicate 20 0 ++ List.replicate 6 5) 200

/-- Twelve idle passes to learn the baselines, then the burst. -/
def archiverRun : List PassRecord :=
  serviceRun numericEstimators (fun _ => 0) idleService (fun _ => Memory.empty)
    (List.replicate 12 (archiverInput (List.replicate 26 0) 100) ++ [archiverBurst])

theorem archiverRun_last :
    archiverRun.getLast?.map (fun cur =>
      ((cur.merged idleService).rootCauseRanking.head?.map RankEntry.pod,
        cur.outputs.flatMap fun out => out.2.edges)) = some (some "log-archiver-6d-x1", []) := by
  decide +kernel

/-- No edge is accepted in the last pass, and a root is served: the seeded edge carries it. -/
theorem archiverBurst_root_held :
    ∃ cur ∈ archiverRun.getLast?, ¬ RootIsLive (cur.calls archiverBurst) (cur.merged idleService) := by
  obtain ⟨cur, hcur, heq⟩ := Option.map_eq_some_iff.mp archiverRun_last
  obtain ⟨hroot, hedges⟩ := Prod.mk.inj heq
  refine ⟨cur, hcur, ?_⟩
  intro hlive
  obtain ⟨top, hhead, -⟩ := Option.map_eq_some_iff.mp hroot
  obtain ⟨rest, hrank⟩ := List.head?_eq_some_iff.mp hhead
  obtain ⟨s, -, ⟨sig, c, hc, he⟩, -⟩ := hlive top rest hrank
  obtain ⟨out, hout, hcall⟩ := List.mem_map.mp (Dict.mem_of_get?_ofList hc)
  obtain ⟨-, rfl⟩ := Prod.mk.inj hcall
  exact absurd (List.mem_flatMap.mpr ⟨out, hout, he⟩) (by rw [hedges]; simp)

end EdgeCausal
