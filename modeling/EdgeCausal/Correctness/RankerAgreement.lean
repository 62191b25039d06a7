import EdgeCausal.Correctness.Backbone
import EdgeCausal.Correctness.MergedVerdict

/-!
# `Correctness.RankerAgreement` — one signal, ranked twice

A rendered graph is ranked again when it is merged, over the same edges but behind a different guard. The merge
asks for a finding on the graph; the rendering asks for a finding and an edge, and falls back to all nodes when
the finding is elsewhere. Over the memories that passes leave there is always somebody to blame then, so the two
rankers agree exactly when the pass is silent, nothing is rendered, or some finding is on the rendered graph
(`rankers_agree_iff`). Which pods are on it can be told from the memory before the call (`onRendered_iff`).
-/

namespace EdgeCausal

open Lib

/-! ## The pods on a rendered graph -/

section Rendered
variable {cfg : MemoryConfig} {m : Memory} {c : ObserveCall} {sha1 : CaseKey → CaseId} {n : Pod}

/-- The graph a call returns. -/
abbrev servedBy (cfg : MemoryConfig) (sha1 : CaseKey → CaseId) (m : Memory) (c : ObserveCall) : ServedGraph :=
  (observe cfg sha1 m c.graph c.vectors c.witness c.ts c.now).2

/-- An end of an edge the call accepts, or the pod that carries now a workload of a row it remembers; the other
    workload of the row has a pod too. -/
def OnRendered (cfg : MemoryConfig) (m : Memory) (c : ObserveCall) (n : Pod) : Prop :=
  (∃ e ∈ c.graph.edges, e.src = n ∨ e.dst = n) ∨
    ∃ k row src dst, Remembers cfg m c k row ∧ (workloadPod c.vectors).get? k.1 = some src ∧
      (workloadPod c.vectors).get? k.2.1 = some dst ∧ (src = n ∨ dst = n)

/-- **Whichever of the rows of a pair is held, its edge joins the same two pods.** -/
theorem onRendered_iff :
    (∃ s ∈ (servedBy cfg sha1 m c).edges, s.edge.src = n ∨ s.edge.dst = n) ↔ OnRendered cfg m c n := by
  constructor
  · rintro ⟨s, hs, hend⟩
    rcases mem_observe_cases hs with he | ⟨k, row, s', hrow, heq⟩
    · exact Or.inl ⟨s.edge, he, hend⟩
    · obtain ⟨hsrc, hdst, -⟩ := heldEdge_eq_some hrow.rendered
      rw [heq] at hsrc hdst
      exact Or.inr ⟨k, row, s.edge.src, s.edge.dst, hrow.remembers, hsrc, hdst, hend⟩
  · rintro (⟨e, he, hend⟩ | ⟨k, row, src, dst, hrem, hsrc, hdst, hend⟩)
    · have hlive : ∃ s ∈ (servedBy cfg sha1 m c).edges, s.edge = e ∧ ∃ mark, s.mark = some mark ∧
        mark.source = .live :=
        accepted_rendered he
      obtain ⟨s, hs, rfl, -⟩ := hlive
      exact ⟨s, hs, hend⟩
    · -- the strongest row of the pair is held, in one direction or the other
      have hown : (k, row) ∈ rivals cfg (observeStep cfg sha1 m c).edgeMemory (frozenPair k.1 k.2.1) :=
        (mem_rivals_iff_remembers hrem.absent).mpr ⟨hrem, rfl⟩
      cases hmax : firstMax (fun kr : EdgeKey × EdgeRow => kr.2.confidence)
          (rivals cfg (observeStep cfg sha1 m c).edgeMemory (frozenPair k.1 k.2.1)) with
      | none => exact absurd hown (by rw [firstMax_eq_none_iff.mp hmax]; simp)
      | some best =>
          obtain ⟨k', row'⟩ := best
          obtain ⟨hrem', hpair⟩ := (mem_rivals_iff_remembers hrem.absent).mp (firstMax_mem hmax)
          have hheld : (k', row') ∈ heldRows cfg (observeStep cfg sha1 m c).edgeMemory
              (livePairs c.graph.edges) := by
            rw [mem_heldRows]
            exact ⟨hrem'.absent, by rw [hpair]; exact hmax⟩
          have hends : ∃ src' dst', (workloadPod c.vectors).get? k'.1 = some src' ∧
              (workloadPod c.vectors).get? k'.2.1 = some dst' ∧ (src' = n ∨ dst' = n) := by
            rcases frozenPair_eq_iff.mp hpair with ⟨h1, h2⟩ | ⟨h1, h2⟩
            · exact ⟨src, dst, by rw [h1]; exact hsrc, by rw [h2]; exact hdst, hend⟩
            · exact ⟨dst, src, by rw [h1]; exact hdst, by rw [h2]; exact hsrc, hend.symm⟩
          obtain ⟨src', dst', hsrc', hdst', hend'⟩ := hends
          obtain ⟨s, hs, rfl, rfl, -⟩ := exists_heldEdge (k', row') c.now hsrc' hdst'
          exact ⟨s, List.mem_append_right _ (List.mem_filterMap.mpr ⟨(k', row'), hheld, hs⟩), hend'⟩

end Rendered

/-! ## What passes leave in the edge memory -/

/-- A row that a pass confirmed has a correlation of at least the floor of a source edge; one that was only
    seeded has none, and leads up the order of the workload names. -/
def PassRow (k : EdgeKey) (row : EdgeRow) : Prop := (row.r = 0 ∧ k.1 < k.2.1) ∨ rSrc ≤ row.r

section Rows
variable {cfg : MemoryConfig} {c : ObserveCall} {k : EdgeKey} {row : Option EdgeRow} {r : EdgeRow}

theorem confirmRows_r {edges : List Edge} {ts : ℚ} (hne : edges ≠ [])
    (h : confirmRows cfg ts edges row = some r) :
    ∃ e ∈ edges, r.r = e.r := by
  obtain ⟨front, last, rfl⟩ := List.eq_nil_or_concat' edges |>.resolve_left hne
  unfold confirmRows at h
  rw [List.foldl_append, List.foldl_cons, List.foldl_nil] at h
  obtain rfl := Option.some.inj h
  exact ⟨last, by simp, rfl⟩

theorem seededRow_passRow {w : Option Witness} {present : List Workload} {ts : ℚ}
    (hrow : ∀ r, row = some r → PassRow k r) (h : seededRow cfg w present ts k row = some r) : PassRow k r := by
  unfold seededRow at h
  split at h
  · rename_i hseeds
    obtain rfl := Option.some.inj h
    cases row with
    | none => exact Or.inl ⟨rfl, hseeds.lt⟩
    | some old =>
        have hold := hrow old rfl
        unfold seedRow
        dsimp only
        split
        · exact hold
        · exact hold
  · exact hrow r h

/-- One call on the output of a pass. -/
theorem ObserveCall.rowAfter_passRow (hc : ∀ e ∈ c.graph.edges, rSrc ≤ e.r)
    (hrow : ∀ r, row = some r → PassRow k r)
    (h : c.rowAfter cfg k row = some r) : PassRow k r := by
  unfold ObserveCall.rowAfter at h
  rcases rowAfter_cases cfg c.graph.edges c.present c.witness c.ts k row with
    ⟨hproj, heq⟩ | ⟨-, -, heq⟩ | ⟨-, -, -, heq⟩
  · rw [heq] at h
    obtain ⟨e, he, hr⟩ := confirmRows_r (projects_iff.mp hproj) h
    right
    rw [hr]
    exact hc e (List.mem_of_mem_filter he)
  · rw [heq] at h
    obtain ⟨seeded, hseeded, rfl⟩ := Option.map_eq_some_iff.mp h
    -- decay keeps the correlation
    exact (seededRow_passRow hrow hseeded : PassRow k seeded)
  · rw [heq] at h
    exact hrow r h

theorem passes_strong (hc : ∃ est args, c.graph = runPass est args) : ∀ e ∈ c.graph.edges, rSrc ≤ e.r := by
  obtain ⟨est, args, heq⟩ := hc
  rw [heq]
  exact fun e he => (passEdges_strong he).1

/-- The edge memory after any number of calls on the outputs of passes. -/
theorem stateAt_passRow (cfg : MemoryConfig) (sha1 : CaseKey → CaseId) {calls : List ObserveCall}
    (hcalls : OnPasses calls) (i : ℕ) (k : EdgeKey) (r : EdgeRow)
    (h : (stateAt (observeStep cfg sha1) Memory.empty calls i).edgeMemory.get? k = some r) : PassRow k r := by
  refine memoryAt_rows (fun c hc k row hrow r hr => ?_) sha1 i k r h
  exact ObserveCall.rowAfter_passRow (passes_strong (hcalls c hc)) hrow hr

end Rows

/-! ## The two rankers -/

/-- Merging the one signal shows the edges, the ranking and the blast radius of its own graph. -/
structure Agrees (sig : Signal) (primary : Option Signal) (g : ServedGraph) : Prop where
  edges : (mergeGraphs (Dict.ofList [(sig, g)]) primary).edges = g.edges.map (tagEdge sig)
  ranking : (mergeGraphs (Dict.ofList [(sig, g)]) primary).rootCauseRanking = g.rootCauseRanking
  blast : (mergeGraphs (Dict.ofList [(sig, g)]) primary).blastRadius = g.blastRadius

section Rankers
variable {cfg : MemoryConfig} {sha1 : CaseKey → CaseId} {m : Memory} {c : ObserveCall}

/-- The ranking of the rendered edges seeded with all findings, on the graph or not. -/
def renderRanking (edges : List ServedEdge) (findings : List Finding) : List RankEntry :=
  rankRootCauses (servedGraph edges) (findings.map Finding.pod) (findingOnsets findings) topCauses

/-- Symptoms off the graph change nothing as long as one is on it. -/
theorem seedSet_filter {g : CGraph} {seeds : List Pod} :
    seedSet g (seeds.filter (· ∈ g.nodes)) = seedSet g seeds := by
  unfold seedSet
  rw [List.filter_filter]
  simp only [Bool.and_self]

theorem rankRootCauses_filter {g : CGraph} {seeds : List Pod} {onsetS : Dict Pod ℚ} {top : ℕ} :
    rankRootCauses g (seeds.filter (· ∈ g.nodes)) onsetS top = rankRootCauses g seeds onsetS top := by
  unfold rankRootCauses ranked
  rw [seedSet_filter]

/-- The merge of one signal ranks as its rendering does, when a finding is on the graph. -/
theorem mergedRanking_single {edges : List ServedEdge} {findings : List Finding}
    (h : ∃ f ∈ findings, f.pod ∈ (servedGraph edges).nodes) (hedges : edges ≠ []) :
    mergedRanking edges (findings.map fun f => ⟨f, none⟩) = renderRanking edges findings := by
  obtain ⟨f, hf, hnode⟩ := h
  have hfindings : findings.map (fun f => (⟨f, none⟩ : ServedFinding)) ≠ [] := by
    rw [Ne, List.map_eq_nil_iff]
    exact List.ne_nil_of_mem hf
  have hpods : (findings.map fun f => (⟨f, none⟩ : ServedFinding)).map (fun f => f.finding.pod) =
      findings.map Finding.pod := by
    rw [List.map_map]
    rfl
  have honsets : (findings.map fun f => (⟨f, none⟩ : ServedFinding)).map ServedFinding.finding = findings := by
    rw [List.map_map]
    exact List.map_id findings
  unfold mergedRanking onGraphSeeds renderRanking
  dsimp only
  rw [if_neg (not_or.mpr ⟨hedges, hfindings⟩), hpods, honsets, rankRootCauses_filter, if_neg]
  intro hnil
  rw [List.filter_eq_nil_iff] at hnil
  exact hnil f.pod (List.mem_map_of_mem hf) (by simpa using hnode)

/-- Tags do not matter to a ranking. -/
theorem mergedRanking_tagged (sig : Signal) (edges : List ServedEdge) (findings : List ServedFinding) :
    mergedRanking (edges.map (tagEdge sig)) (findings.map (tagFinding sig)) = mergedRanking edges findings := by
  have hgraph : servedGraph (edges.map (tagEdge sig)) = servedGraph edges := by
    unfold servedGraph
    rw [List.map_map]
    rfl
  have hseeds : onGraphSeeds (servedGraph edges) (findings.map (tagFinding sig)) =
      onGraphSeeds (servedGraph edges) findings := by
    unfold onGraphSeeds
    rw [List.map_map]
    rfl
  have honsets : (findings.map (tagFinding sig)).map ServedFinding.finding =
      findings.map ServedFinding.finding := by
    rw [List.map_map]
    rfl
  unfold mergedRanking
  dsimp only
  rw [hgraph, hseeds, honsets]
  simp only [List.map_eq_nil_iff]

theorem mergeGraphs_single (sig : Signal) (primary : Option Signal) (g : ServedGraph) :
    (mergeGraphs (Dict.ofList [(sig, g)]) primary).edges = g.edges.map (tagEdge sig) ∧
      (mergeGraphs (Dict.ofList [(sig, g)]) primary).rootCauseRanking = mergedRanking g.edges g.findings ∧
      (mergeGraphs (Dict.ofList [(sig, g)]) primary).blastRadius
        = blastOfTop (servedGraph g.edges) (mergedRanking g.edges g.findings) := by
  have hedges : mergedEdges (Dict.ofList [(sig, g)]) = g.edges.map (tagEdge sig) := List.append_nil _
  have hfindings : mergedFindings (Dict.ofList [(sig, g)]) = g.findings.map (tagFinding sig) :=
    List.append_nil _
  have hgraph : servedGraph (g.edges.map (tagEdge sig)) = servedGraph g.edges := by
    unfold servedGraph
    rw [List.map_map]
    rfl
  unfold mergeGraphs
  dsimp only
  rw [hedges, hfindings, mergedRanking_tagged, hgraph]
  exact ⟨rfl, rfl, rfl⟩

/-- What the call returns is ranked over its edges when it has findings and edges; else the pass's ranking. -/
theorem servedBy_ranking (cfg : MemoryConfig) (sha1 : CaseKey → CaseId) (m : Memory) (c : ObserveCall) :
    (servedBy cfg sha1 m c).rootCauseRanking
      = (if c.graph.findings ≠ [] ∧ (servedBy cfg sha1 m c).edges ≠ [] then
          renderRanking (servedBy cfg sha1 m c).edges c.graph.findings else c.graph.rootCauseRanking) ∧
    (servedBy cfg sha1 m c).blastRadius
      = (if c.graph.findings ≠ [] ∧ (servedBy cfg sha1 m c).edges ≠ [] then
          blastOfTop (servedGraph (servedBy cfg sha1 m c).edges)
            (renderRanking (servedBy cfg sha1 m c).edges c.graph.findings) else c.graph.blastRadius) :=
  ⟨rfl, rfl⟩

/-- A pass without edges blames nobody. -/
theorem runPass_of_no_edges {est : Estimators} {args : PassArgs} (h : (runPass est args).edges = []) :
    (runPass est args).rootCauseRanking = [] ∧ (runPass est args).blastRadius = [] := by
  have hrank : (runPass est args).rootCauseRanking = [] := by
    show rankRootCauses (buildGraph (runPass est args).edges) _ _ _ = []
    rw [h]
    rfl
  refine ⟨hrank, ?_⟩
  show blastOfTop (buildGraph (runPass est args).edges) (runPass est args).rootCauseRanking = []
  rw [hrank]
  rfl

/-- The edges rendered over the memory that passes leave carry impact, or lead up the order of the workloads. -/
theorem rendered_strong_or_up (hm : ∀ k r, m.edgeMemory.get? k = some r → PassRow k r)
    (hc : ∀ e ∈ c.graph.edges, rSrc ≤ e.r) :
    ∀ e ∈ (servedBy cfg sha1 m c).edges.map ServedEdge.edge,
      cut ≤ |e.r| * decay ∨ stableWorkload e.src < stableWorkload e.dst := by
  have hstrong : ∀ {r : ℚ}, rSrc ≤ r → cut ≤ |r| * decay := by
    intro r hr
    calc cut ≤ rSrc * decay := by norm_num [cut, rSrc, decay]
      _ ≤ |r| * decay := mul_le_mul_of_nonneg_right (hr.trans (le_abs_self r)) (by norm_num [decay])
  intro e he
  obtain ⟨s, hs, rfl⟩ := List.mem_map.mp he
  rcases mem_observe_cases hs with hacc | ⟨k, row, s', hrow, heq⟩
  · exact Or.inl (hstrong (hc s.edge hacc))
  · obtain ⟨hsrc, hdst, hr, -⟩ := heldEdge_eq_some hrow.rendered
    rw [heq] at hsrc hdst hr
    rcases ObserveCall.rowAfter_passRow hc (hm k) hrow.remembers.stored with ⟨-, hlt⟩ | hrow'
    · right
      rw [(workloadPod_spec hsrc).1, (workloadPod_spec hdst).1]
      exact hlt
    · left
      apply hstrong
      rw [hr]
      have hgrid : ((500 : ℤ) : ℚ) / 10 ^ 3 ≤ row.r := by
        calc ((500 : ℤ) : ℚ) / 10 ^ 3 = rSrc := by norm_num [rSrc]
          _ ≤ row.r := hrow'
      calc rSrc = ((500 : ℤ) : ℚ) / 10 ^ 3 := by norm_num [rSrc]
        _ ≤ roundAt 3 row.r := le_roundAt hgrid

/-- Without a finding on the graph the rendering blames somebody all the same. -/
theorem renderRanking_ne_nil (hm : ∀ k r, m.edgeMemory.get? k = some r → PassRow k r)
    (hc : ∀ e ∈ c.graph.edges, rSrc ≤ e.r) (hne : (servedBy cfg sha1 m c).edges ≠ [])
    (hoff : ∀ f ∈ c.graph.findings, f.pod ∉ (servedGraph (servedBy cfg sha1 m c).edges).nodes) :
    renderRanking (servedBy cfg sha1 m c).edges c.graph.findings ≠ [] := by
  have hne' : (servedBy cfg sha1 m c).edges.map ServedEdge.edge ≠ [] := by
    rw [Ne, List.map_eq_nil_iff]
    exact hne
  have hseeds : seedSet (servedGraph (servedBy cfg sha1 m c).edges) (c.graph.findings.map Finding.pod)
      = (servedGraph (servedBy cfg sha1 m c).edges).nodes := by
    unfold seedSet
    dsimp only
    rw [if_pos]
    rw [List.filter_eq_nil_iff]
    intro n hn
    obtain ⟨f, hf, rfl⟩ := List.mem_map.mp hn
    simpa using hoff f hf
  obtain ⟨n, hn, hpos⟩ := exists_explained hne' stableWorkload (rendered_strong_or_up hm hc)
  unfold renderRanking topCauses
  rw [Ne, rankRootCauses_eq_nil_iff, not_or]
  refine ⟨numberOfEdges_buildGraph_ne_zero hne', ?_⟩
  intro hzero
  have hle := hzero n hn
  rw [hseeds] at hle
  exact absurd hle (not_le.mpr hpos)

/-- The findings of a call carry no signal tag. -/
theorem servedBy_findings : (servedBy cfg sha1 m c).findings = c.graph.findings.map fun f => ⟨f, none⟩ := rfl

theorem mem_rendered_nodes {n : Pod} :
    n ∈ (servedGraph (servedBy cfg sha1 m c).edges).nodes ↔ OnRendered cfg m c n :=
  mem_nodes_servedGraph.trans onRendered_iff

/-- Where the pass accepted nothing and neither ranker runs, both graphs are silent. -/
theorem agrees_of_silent {sig : Signal} {primary : Option Signal} {est : Estimators} {args : PassArgs}
    (hgraph : c.graph = runPass est args) (hnone : c.graph.edges = [])
    (hmerged : mergedRanking (servedBy cfg sha1 m c).edges (servedBy cfg sha1 m c).findings = [])
    (hguard : ¬ (c.graph.findings ≠ [] ∧ (servedBy cfg sha1 m c).edges ≠ [])) :
    Agrees sig primary (servedBy cfg sha1 m c) := by
  obtain ⟨hedges, hrank, hblast⟩ := mergeGraphs_single sig primary (servedBy cfg sha1 m c)
  obtain ⟨hownRank, hownBlast⟩ := servedBy_ranking cfg sha1 m c
  rw [hgraph] at hnone
  obtain ⟨hrank0, hblast0⟩ := runPass_of_no_edges hnone
  refine ⟨hedges, ?_, ?_⟩
  · rw [hrank, hownRank, hmerged, if_neg hguard, hgraph, hrank0]
  · rw [hblast, hownBlast, hmerged, if_neg hguard, hgraph, hblast0]
    rfl

/-- Without a finding the pass accepted nothing, and neither ranker runs. -/
theorem agrees_of_no_finding {sig : Signal} {primary : Option Signal} {est : Estimators} {args : PassArgs}
    (hgraph : c.graph = runPass est args) (hnil : c.graph.findings = []) :
    Agrees sig primary (servedBy cfg sha1 m c) := by
  have hactive : args.active = [] := by
    rw [hgraph] at hnil
    exact findings_eq_nil_iff.mp hnil
  apply agrees_of_silent hgraph
  · rw [hgraph]
    exact passEdges_eq_nil hactive
  · unfold mergedRanking
    rw [if_pos]
    right
    rw [servedBy_findings, hnil]
    rfl
  · exact fun hguard => hguard.1 hnil

/-- Where nothing is rendered neither ranker runs. -/
theorem agrees_of_nothing_rendered {sig : Signal} {primary : Option Signal} {est : Estimators} {args : PassArgs}
    (hgraph : c.graph = runPass est args) (hnone : ∀ n, ¬ OnRendered cfg m c n) :
    Agrees sig primary (servedBy cfg sha1 m c) := by
  have hempty : (servedBy cfg sha1 m c).edges = [] := by
    rw [List.eq_nil_iff_forall_not_mem]
    intro s hs
    exact hnone s.edge.src (onRendered_iff.mp ⟨s, hs, Or.inl rfl⟩)
  apply agrees_of_silent hgraph
  · rw [List.eq_nil_iff_forall_not_mem]
    intro e he
    exact hnone e.src (Or.inl ⟨e, he, Or.inl rfl⟩)
  · unfold mergedRanking
    rw [if_pos (Or.inl hempty)]
  · exact fun hguard => hguard.2 hempty

/-- With a finding on the graph both rankers start from the same symptoms. -/
theorem agrees_of_on_graph {sig : Signal} {primary : Option Signal} {f : Finding} (hf : f ∈ c.graph.findings)
    (hon : OnRendered cfg m c f.pod) : Agrees sig primary (servedBy cfg sha1 m c) := by
  obtain ⟨hedges, hrank, hblast⟩ := mergeGraphs_single sig primary (servedBy cfg sha1 m c)
  obtain ⟨hownRank, hownBlast⟩ := servedBy_ranking cfg sha1 m c
  have hmem : f.pod ∈ (servedGraph (servedBy cfg sha1 m c).edges).nodes := mem_rendered_nodes.mpr hon
  have hne : (servedBy cfg sha1 m c).edges ≠ [] := by
    obtain ⟨s, hs, -⟩ := mem_nodes_servedGraph.mp hmem
    exact List.ne_nil_of_mem hs
  have hguard : c.graph.findings ≠ [] ∧ (servedBy cfg sha1 m c).edges ≠ [] := ⟨List.ne_nil_of_mem hf, hne⟩
  have hsame := mergedRanking_single ⟨f, hf, hmem⟩ hne
  refine ⟨hedges, ?_, ?_⟩
  · rw [hrank, hownRank, servedBy_findings, hsame, if_pos hguard]
  · rw [hblast, hownBlast, servedBy_findings, hsame, if_pos hguard]

/-- The merge blames nobody when no finding is on the graph. -/
theorem mergedRanking_of_off {edges : List ServedEdge} {findings : List Finding}
    (hoff : ∀ f ∈ findings, f.pod ∉ (servedGraph edges).nodes) :
    mergedRanking edges (findings.map fun f => ⟨f, none⟩) = [] := by
  unfold mergedRanking onGraphSeeds
  dsimp only
  split
  · rfl
  · rw [if_pos]
    rw [List.filter_eq_nil_iff]
    intro p hp
    obtain ⟨f', hf', rfl⟩ := List.mem_map.mp hp
    obtain ⟨f, hf, rfl⟩ := List.mem_map.mp hf'
    simpa using hoff f hf

/-- So the rankers disagree: over the rendered edges the call blames somebody. -/
theorem not_agrees_of_off {sig : Signal} {primary : Option Signal}
    (hm : ∀ k r, m.edgeMemory.get? k = some r → PassRow k r) (hc : ∀ e ∈ c.graph.edges, rSrc ≤ e.r)
    (hsome : c.graph.findings ≠ []) (hne : (servedBy cfg sha1 m c).edges ≠ [])
    (hoff : ∀ f ∈ c.graph.findings, f.pod ∉ (servedGraph (servedBy cfg sha1 m c).edges).nodes) :
    ¬ Agrees sig primary (servedBy cfg sha1 m c) := by
  intro h
  obtain ⟨-, hrank, -⟩ := mergeGraphs_single sig primary (servedBy cfg sha1 m c)
  obtain ⟨hownRank, -⟩ := servedBy_ranking cfg sha1 m c
  have hagree := h.ranking
  rw [hrank, servedBy_findings, mergedRanking_of_off hoff, hownRank, if_pos ⟨hsome, hne⟩] at hagree
  exact renderRanking_ne_nil hm hc hne hoff hagree.symm

end Rankers

/-- **When the two rankers agree.** Over every memory that calls on the outputs of passes leave, and every
    further call on the output of a pass with any live pods: the merge of the one signal shows what the call
    returned if and only if the pass has no finding, nothing is rendered, or a finding is on the rendered
    graph. -/
theorem rankers_agree_iff (cfg : MemoryConfig) (sha1 : CaseKey → CaseId) (calls : List ObserveCall)
    (hcalls : OnPasses calls) (c : ObserveCall) (hc : ∃ est args, c.graph = runPass est args) (sig : Signal)
    (primary : Option Signal) :
    let m := stateAt (observeStep cfg sha1) Memory.empty calls calls.length
    Agrees sig primary (servedBy cfg sha1 m c) ↔
      c.graph.findings = [] ∨ (∀ n, ¬ OnRendered cfg m c n) ∨
          ∃ f ∈ c.graph.findings, OnRendered cfg m c f.pod := by
  intro m
  have hm : ∀ k r, m.edgeMemory.get? k = some r → PassRow k r := fun k r h =>
    stateAt_passRow cfg sha1 hcalls calls.length k r h
  have hstrong : ∀ e ∈ c.graph.edges, rSrc ≤ e.r := passes_strong hc
  obtain ⟨est, args, hgraph⟩ := hc
  constructor
  · intro h
    by_contra hnot
    rw [not_or, not_or, not_forall] at hnot
    obtain ⟨hsome, ⟨n, hn⟩, hoff⟩ := hnot
    rw [not_not, ← onRendered_iff] at hn
    obtain ⟨s, hs, -⟩ := hn
    refine not_agrees_of_off hm hstrong hsome (List.ne_nil_of_mem hs) ?_ h
    intro f hf hmem
    exact hoff ⟨f, hf, mem_rendered_nodes.mp hmem⟩
  · rintro (hnil | hnone | ⟨f, hf, hon⟩)
    · exact agrees_of_no_finding hgraph hnil
    · exact agrees_of_nothing_rendered hgraph hnone
    · exact agrees_of_on_graph hf hon

/-! ### A finding elsewhere -/

/-- The collector stalls alone; the archiver and the database share a disk. -/
def loneArgs : PassArgs where
  vectors := Dict.ofList [("log-archiver-6d-x1", List.replicate 26 0),
    ("timescaledb-0-y2", List.replicate 26 0),
    ("collector-7f-z3", List.replicate 20 0 ++ List.replicate 6 5)]
  witness := ⟨[], [], [("log-archiver-6d-x1", "timescaledb-0-y2")], []⟩
  sloBreach := none
  caps := ∅
  window := none
  writeVectors := none
  baselines := none
  recent := none

def loneCall : ObserveCall where
  graph := runPass numericEstimators loneArgs
  vectors := loneArgs.vectors
  witness := some loneArgs.witness
  ts := 10
  now := 10

theorem loneCall_onPasses : OnPasses [loneCall] := by
  intro c hc
  obtain rfl := List.mem_singleton.mp hc
  exact ⟨numericEstimators, loneArgs, rfl⟩

theorem loneCall_rankings :
    (servedBy MemoryConfig.default (fun _ => 0) Memory.empty loneCall).rootCauseRanking.map RankEntry.pod
        = ["log-archiver-6d-x1"] ∧
      (mergeGraphs (Dict.ofList [("psi_io", servedBy MemoryConfig.default (fun _ => 0) Memory.empty loneCall)])
        (some "psi_io")).rootCauseRanking = [] := by
  decide +kernel

/-- The rendering blames the archiver, which is only on the seeded backbone; the merge blames nobody. -/
theorem loneCall_disagrees :
    OnPasses [loneCall] ∧ ¬ Agrees "psi_io" (some "psi_io")
      (servedBy MemoryConfig.default (fun _ => 0) (stateAt (observeStep MemoryConfig.default fun _ => 0)
        Memory.empty [] 0) loneCall) := by
  refine ⟨loneCall_onPasses, ?_⟩
  intro h
  obtain ⟨hrendered, hmerged⟩ := loneCall_rankings
  have hrank := h.ranking
  rw [stateAt_zero, hmerged] at hrank
  rw [← hrank] at hrendered
  exact absurd hrendered (by decide)

/-- The first storm over two tenants' disks: the finding is on the edge the pass accepts. -/
theorem rankers_agree_iff_tenant :
    OnPasses [tenantCall "tenant-29f14be7fe9ed69e-7c9d4-bbb22" 5] ∧
      (let c := tenantCall "tenant-b26b7ec6db3b15c3-7c9d4-bbb22" 10
       let calls := [tenantCall "tenant-29f14be7fe9ed69e-7c9d4-bbb22" 5]
       let m := stateAt (observeStep MemoryConfig.default caseHash) Memory.empty calls calls.length
       Agrees "psi_io" none (servedBy MemoryConfig.default caseHash m c) ↔
         c.graph.findings = [] ∨ (∀ n, ¬ OnRendered MemoryConfig.default m c n) ∨
           ∃ f ∈ c.graph.findings, OnRendered MemoryConfig.default m c f.pod) := by
  have hcalls : OnPasses [tenantCall "tenant-29f14be7fe9ed69e-7c9d4-bbb22" 5] :=
    tenantCall_onPass (by
      intro c hc
      obtain rfl := List.mem_singleton.mp hc
      exact ⟨_, _, rfl⟩)
  exact ⟨hcalls, rankers_agree_iff MemoryConfig.default caseHash _ hcalls _ ⟨numericEstimators, _,
    rfl⟩ "psi_io" none⟩

end EdgeCausal
