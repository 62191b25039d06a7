import EdgeCausal.Correctness.Bookkeeping
import EdgeCausal.Correctness.HeldRoot
import EdgeCausal.Correctness.StrongestWalk

/-!
# `Correctness.MergedVerdict` — no root without a symptom

The verdict over the union of the signals' graphs. A symptom is a finding whose pod is on the merged graph;
every ranked pod leads to one along edges whose strengths multiply to at least the cut, or is one itself that
nothing points at (`merged_verdict_sound`). The blast radius is that of the first-ranked pod, and the signal
of the verdict is the tag of an edge leaving it, as long as that tag is not empty: an empty tag counts as
none.
-/

namespace EdgeCausal

open Lib

/-! ## Scores of a ranking -/

section Ranking
variable {g : CGraph} {seeds : List Pod} {onsetS : Dict Pod ℚ} {top : ℕ} {entry : RankEntry}

/-- The sum of all scores, by which the served ones are divided. -/
def totalScore (g : CGraph) (seeds : List Pod) : ℚ := ((scores g (seedSet g seeds)).map Prod.snd).sum

theorem mem_ranked {kv : Pod × ℚ} (h : kv ∈ ranked g seeds onsetS) : kv.2 = explain g (seedSet g seeds) kv.1 ∧
    0 < kv.2 := by
  unfold ranked at h
  rw [mem_sortOn] at h
  unfold scores at h
  obtain ⟨hmem, hpos⟩ := List.mem_filter.mp h
  obtain ⟨n, -, rfl⟩ := List.mem_map.mp hmem
  exact ⟨rfl, by simpa using hpos⟩

/-- The scores fall along the ranked pods. -/
theorem ranked_pairwise (g : CGraph) (seeds : List Pod) (onsetS : Dict Pod ℚ) :
    (ranked g seeds onsetS).Pairwise fun a b => b.2 ≤ a.2 := by
  unfold ranked
  refine (sortOn_pairwise _ _).imp ?_
  intro a b hab
  have hfst := Prod.Lex.monotone_fst _ _ hab
  simpa [rankKey] using hfst

/-- A ranking lists the first ranked pods, their scores divided by the total and rounded. -/
theorem rankRootCauses_ne_nil (h : rankRootCauses g seeds onsetS top ≠ []) :
    rankRootCauses g seeds onsetS top = ((ranked g seeds onsetS).take top).map fun kv =>
      ⟨kv.1, roundAt 3 (kv.2 / totalScore g seeds), onsetS.get? kv.1⟩ := by
  unfold rankRootCauses at h ⊢
  split
  · rename_i hzero
    rw [if_pos hzero] at h
    exact absurd rfl h
  · rfl

theorem rankRootCauses_scores (h : entry ∈ rankRootCauses g seeds onsetS top) :
    0 < explain g (seedSet g seeds) entry.pod ∧
      entry.score = roundAt 3 (explain g (seedSet g seeds) entry.pod / totalScore g seeds) := by
  rw [rankRootCauses_ne_nil (List.ne_nil_of_mem h)] at h
  obtain ⟨kv, hkv, rfl⟩ := List.mem_map.mp h
  obtain ⟨hscore, hpos⟩ := mem_ranked (List.mem_of_mem_take hkv)
  dsimp only
  rw [← hscore]
  exact ⟨hpos, rfl⟩

/-- The unrounded scores fall along the ranking. -/
theorem rankRootCauses_pairwise (g : CGraph) (seeds : List Pod) (onsetS : Dict Pod ℚ) (top : ℕ) :
    (rankRootCauses g seeds onsetS top).Pairwise fun a b =>
      explain g (seedSet g seeds) b.pod ≤ explain g (seedSet g seeds) a.pod := by
  by_cases h : rankRootCauses g seeds onsetS top = []
  · rw [h]
    exact List.Pairwise.nil
  · rw [rankRootCauses_ne_nil h, List.pairwise_map]
    refine ((ranked_pairwise g seeds onsetS).sublist (List.take_sublist top _)).imp_of_mem ?_
    intro a b ha hb hab
    rw [← (mem_ranked (List.mem_of_mem_take ha)).1, ← (mem_ranked (List.mem_of_mem_take hb)).1]
    exact hab

end Ranking

/-! ## The verdict -/

section Verdict

/-- A finding's pod that is an end of a merged edge. -/
def Symptom (merged : MergedGraph) (n : Pod) : Prop :=
  (∃ f ∈ merged.findings, f.finding.pod = n) ∧ ∃ s ∈ merged.edges, s.edge.src = n ∨ s.edge.dst = n

/-- The symptoms the merged ranking explains. -/
def mergedSeeds (merged : MergedGraph) : List Pod :=
  onGraphSeeds (servedGraph merged.edges) merged.findings

/-- The score of a pod before it is divided by the total and rounded. -/
def unroundedScore (merged : MergedGraph) (n : Pod) : ℚ :=
  explain (servedGraph merged.edges) (seedSet (servedGraph merged.edges) (mergedSeeds merged)) n

/-- What speaks for a ranked pod: an edge leaves it, and it leads to a symptom or is one that nothing points
    at. -/
structure Justified (merged : MergedGraph) (n : Pod) : Prop where
  leaves : ∃ s ∈ merged.edges, s.edge.src = n
  symptom : (∃ v, Symptom merged v ∧ ∃ walk, walk ≠ [] ∧ Leads (· ∈ merged.edges.map ServedEdge.edge) n walk v ∧
      15 / 100 ≤ walkStrength walk) ∨ (Symptom merged n ∧ ∀ s ∈ merged.edges, s.edge.dst ≠ n)

/-- The verdict that is served is founded. Its scores are those of any larger budget of the worklist, so they
    are the scores of the loop without one. -/
structure Founded (merged : MergedGraph) : Prop where
  symptom : merged.rootCauseRanking ≠ [] → ∃ n, Symptom merged n
  justified : ∀ entry ∈ merged.rootCauseRanking, Justified merged entry.pod
  positive : ∀ entry ∈ merged.rootCauseRanking, 0 < unroundedScore merged entry.pod ∧
    entry.score = roundAt 3 (unroundedScore merged entry.pod / totalScore (servedGraph merged.edges)
      (mergedSeeds merged))
  falling : merged.rootCauseRanking.Pairwise fun a b =>
    unroundedScore merged b.pod ≤ unroundedScore merged a.pod
  unbounded : ∀ n k, impactFuel (servedGraph merged.edges) ≤ k →
    impactLoop (servedGraph merged.edges) k [(n, 1)] ∅ = forwardImpact (servedGraph merged.edges) n
  blast : ∀ top ∈ merged.rootCauseRanking.head?, merged.blastRadius =
    blastRadius (servedGraph merged.edges) top.pod
  silent : (¬ ∃ n, Symptom merged n) → merged.rootCauseRanking = [] ∧ merged.blastRadius = []

/-- The signal of the verdict is the tag of an edge leaving the first-ranked pod. -/
def SignalOfRoot (merged : MergedGraph) : Prop :=
  ∀ top ∈ merged.rootCauseRanking.head?, ∃ s ∈ merged.edges, s.edge.src = top.pod ∧
    merged.info.signal = s.signal

/-- Or the first such edge has the empty tag. -/
def SignalOfRootOrUntagged (merged : MergedGraph) : Prop :=
  ∀ top ∈ merged.rootCauseRanking.head?, ∃ s ∈ merged.edges, s.edge.src = top.pod ∧
    (merged.info.signal = s.signal ∨ s.signal = some "")

variable {perSignal : Dict Signal ServedGraph} {primary : Option Signal} {entry : RankEntry}

theorem mem_nodes_servedGraph {edges : List ServedEdge} {n : Pod} :
    n ∈ (servedGraph edges).nodes ↔ ∃ s ∈ edges, s.edge.src = n ∨ s.edge.dst = n := by
  unfold servedGraph
  rw [mem_nodes_buildGraph]
  simp only [List.mem_map, exists_exists_and_eq_and]

/-- The seeds of a merged ranking are its symptoms. -/
theorem mem_mergedSeeds {merged : MergedGraph} {n : Pod} : n ∈ mergedSeeds merged ↔ Symptom merged n := by
  unfold mergedSeeds onGraphSeeds Symptom
  rw [List.mem_filter, List.mem_map, decide_eq_true_iff, mem_nodes_servedGraph]

/-- A merged ranking with a line ranks the symptoms. -/
theorem mergedRanking_cases (merged : MergedGraph)
    (h : merged.rootCauseRanking = mergedRanking merged.edges merged.findings) :
    merged.rootCauseRanking = [] ∨ (mergedSeeds merged ≠ [] ∧
      merged.rootCauseRanking = rankRootCauses (servedGraph merged.edges) (mergedSeeds merged)
        (findingOnsets (merged.findings.map ServedFinding.finding)) topCauses) := by
  rw [h]
  unfold mergedRanking mergedSeeds
  dsimp only
  split
  · exact Or.inl rfl
  · split
    · exact Or.inl rfl
    · rename_i hseeds
      exact Or.inr ⟨hseeds, rfl⟩

/-- A pod that is ranked is justified. -/
theorem justified_of_ranked {merged : MergedGraph} (h : entry ∈ rankRootCauses (servedGraph merged.edges)
      (mergedSeeds merged) (findingOnsets (merged.findings.map ServedFinding.finding)) topCauses)
    (hseeds : mergedSeeds merged ≠ []) : Justified merged entry.pod := by
  obtain ⟨e, he, hsrc⟩ := leaves_of_ranked h
  obtain ⟨s, hs, rfl⟩ := List.mem_map.mp he
  have hsymptom : ∀ {n}, n ∈ seedSet (servedGraph merged.edges) (mergedSeeds merged) → Symptom merged n := by
    intro n hn
    obtain ⟨hnode, hfinding⟩ := mem_seedSet_onGraph hn hseeds
    exact ⟨hfinding, mem_nodes_servedGraph.mp hnode⟩
  refine ⟨⟨s, hs, hsrc⟩, ?_⟩
  rcases reaches_of_explain (explain_pos_of_ranked h).2 with ⟨v, hv, hreach⟩ | ⟨hself, hdeg⟩
  · exact Or.inl ⟨v, hsymptom hv, hreach.leads⟩
  · refine Or.inr ⟨hsymptom hself, ?_⟩
    intro s' hs' hdst
    have hin : 0 < (servedGraph merged.edges).inDegree entry.pod :=
      buildGraph_inDegree_pos.mpr ⟨s'.edge, List.mem_map_of_mem hs', hdst⟩
    exact hin.ne' hdeg

/-- The strengths of the merged edges are those of the signals' edges. -/
theorem mergedEdges_light (h : ∀ sg ∈ perSignal.entries, ∀ s ∈ sg.2.edges, |s.edge.r| ≤ 1) :
    LightEdges (servedGraph (mergedEdges perSignal)) := by
  apply buildGraph_light
  intro e he
  obtain ⟨s, hs, rfl⟩ := List.mem_map.mp he
  obtain ⟨sg, hsg, hs⟩ := List.mem_flatMap.mp hs
  obtain ⟨s', hs', rfl⟩ := List.mem_map.mp hs
  exact h sg hsg s' hs'

/-- The signal of the verdict. -/
theorem mergeGraphs_signal (perSignal : Dict Signal ServedGraph) (primary : Option Signal)
    (hleaves : ∀ top ∈ (mergeGraphs perSignal primary).rootCauseRanking.head?,
      ∃ s ∈ (mergeGraphs perSignal primary).edges, s.edge.src = top.pod) :
    SignalOfRootOrUntagged (mergeGraphs perSignal primary) := by
  intro top htop
  obtain ⟨rest, hrank⟩ := List.head?_eq_some_iff.mp htop
  obtain ⟨s, hs, hsrc⟩ := hleaves top htop
  -- some edge leaves the root, so the search for the first one succeeds
  cases hfind : (mergeGraphs perSignal primary).edges.find? fun e => e.edge.src = top.pod with
  | none => exact absurd hsrc (by simpa using List.find?_eq_none.mp hfind s hs)
  | some first =>
      have hfirst : first.edge.src = top.pod := by simpa using List.find?_some hfind
      refine ⟨first, List.mem_of_find?_eq_some hfind, hfirst, ?_⟩
      have htagged : ∃ tag, first.signal = some tag := by
        obtain ⟨sg, -, hmem⟩ := List.mem_flatMap.mp (List.mem_of_find?_eq_some hfind)
        obtain ⟨s', -, rfl⟩ := List.mem_map.mp hmem
        exact ⟨_, rfl⟩
      obtain ⟨tag, htag⟩ := htagged
      have hactive : activeSignal (mergedEdges perSignal)
          (mergedRanking (mergedEdges perSignal) (mergedFindings perSignal)) = some tag := by
        unfold activeSignal
        rw [show mergedRanking (mergedEdges perSignal) (mergedFindings perSignal) = top :: rest from hrank]
        dsimp only
        rw [show (mergedEdges perSignal).find? (fun e => e.edge.src = top.pod) = some first from hfind]
        exact htag
      by_cases hempty : tag = ""
      · right
        rw [htag, hempty]
      · left
        rw [htag]
        show ((truthy (activeSignal (mergedEdges perSignal)
          (mergedRanking (mergedEdges perSignal) (mergedFindings perSignal)))).or (truthy primary)).or _ =
            some tag
        rw [hactive]
        unfold truthy
        rw [Option.filter_some, if_pos (by simpa using hempty)]
        rfl

end Verdict

/-- **No root without a symptom on the graph.** For every map of signals to graphs with strengths of at most 1
    the merged verdict is founded, and its signal is the tag of an edge leaving the root unless that tag is
    empty. -/
theorem merged_verdict_sound (perSignal : Dict Signal ServedGraph) (primary : Option Signal)
    (hr : ∀ sg ∈ perSignal.entries, ∀ s ∈ sg.2.edges, |s.edge.r| ≤ 1) :
    Founded (mergeGraphs perSignal primary) ∧ SignalOfRootOrUntagged (mergeGraphs perSignal primary) := by
  have hblast : (mergeGraphs perSignal primary).blastRadius
      = blastOfTop (servedGraph (mergeGraphs perSignal primary).edges)
        (mergeGraphs perSignal primary).rootCauseRanking :=
    rfl
  have hlight : LightEdges (servedGraph (mergeGraphs perSignal primary).edges) := mergedEdges_light hr
  have hcases := mergedRanking_cases (mergeGraphs perSignal primary) rfl
  have hleaves : ∀ entry ∈ (mergeGraphs perSignal primary).rootCauseRanking,
      Justified (mergeGraphs perSignal primary) entry.pod := by
    intro entry hentry
    rcases hcases with hnil | ⟨hseeds, hrank⟩
    · exact absurd hentry (by rw [hnil]; simp)
    · exact justified_of_ranked (hrank ▸ hentry) hseeds
  constructor
  · constructor
    · intro hne
      obtain ⟨n, hn⟩ := List.exists_mem_of_ne_nil _ (hcases.resolve_left hne).1
      exact ⟨n, mem_mergedSeeds.mp hn⟩
    · exact hleaves
    · intro entry hentry
      rcases hcases with hnil | ⟨-, hrank⟩
      · exact absurd hentry (by rw [hnil]; simp)
      · exact rankRootCauses_scores (hrank ▸ hentry)
    · rcases hcases with hnil | ⟨-, hrank⟩
      · rw [hnil]
        exact List.Pairwise.nil
      · rw [hrank]
        exact rankRootCauses_pairwise _ _ _ _
    · intro n k hk
      exact forwardImpact_budget hlight n hk
    · intro top htop
      obtain ⟨rest, hrank⟩ := List.head?_eq_some_iff.mp htop
      rw [hblast, hrank]
      rfl
    · intro hnone
      have hnil : (mergeGraphs perSignal primary).rootCauseRanking = [] := by
        rcases hcases with hnil | ⟨hseeds, -⟩
        · exact hnil
        · obtain ⟨n, hn⟩ := List.exists_mem_of_ne_nil _ hseeds
          exact absurd ⟨n, mem_mergedSeeds.mp hn⟩ hnone
      refine ⟨hnil, ?_⟩
      rw [hblast, hnil]
      rfl
  · apply mergeGraphs_signal
    intro top htop
    exact (hleaves top (List.mem_of_mem_head? htop)).leaves

/-! ### Signals with and without a name -/

/-- A rendered graph in which the archiver's storm is the only edge and the database the only symptom. -/
def stormServed : ServedGraph where
  findings := [⟨⟨"timescaledb-0-y2", .burst, 20, 5, 1⟩, none⟩]
  edges := [⟨stormEdge, none, none⟩]
  rootCauseRanking := []
  blastRadius := []
  pods := 2
  active := 1
  acceptedEdges := 1
  heldEdges := 0
  case := none
  stats := none

theorem stormServed_light (sig : Signal) :
    ∀ sg ∈ (Dict.ofList [(sig, stormServed)]).entries, ∀ s ∈ sg.2.edges, |s.edge.r| ≤ 1 := by
  intro sg hsg s hs
  obtain rfl := List.mem_singleton.mp hsg
  obtain rfl := List.mem_singleton.mp hs
  decide +kernel

theorem merged_verdict_sound_storm :
    Founded (mergeGraphs (Dict.ofList [("psi_io", stormServed)]) (some "psi_io")) ∧
      SignalOfRootOrUntagged (mergeGraphs (Dict.ofList [("psi_io", stormServed)]) (some "psi_io")) :=
  merged_verdict_sound (Dict.ofList [("psi_io", stormServed)]) (some "psi_io") (stormServed_light "psi_io")

/-- The only edge is tagged with the empty name of its signal, and the verdict carries the primary one. -/
theorem unnamed_signal_lost :
    (∀ sg ∈ (Dict.ofList [("", stormServed)]).entries, ∀ s ∈ sg.2.edges, |s.edge.r| ≤ 1) ∧
      ¬ SignalOfRoot (mergeGraphs (Dict.ofList [("", stormServed)]) (some "psi_io")) := by
  refine ⟨stormServed_light "", ?_⟩
  intro h
  have hmerged : (mergeGraphs (Dict.ofList [("", stormServed)])
    (some "psi_io")).rootCauseRanking.map RankEntry.pod
        = ["log-archiver-6d-x1"] ∧
      (mergeGraphs (Dict.ofList [("", stormServed)]) (some "psi_io")).info.signal = some "psi_io" ∧
      (mergeGraphs (Dict.ofList [("", stormServed)]) (some "psi_io")).edges.map ServedEdge.signal =
          [some ""] := by
    decide +kernel
  obtain ⟨hrank, hsignal, htags⟩ := hmerged
  obtain ⟨top, htop, -⟩ := List.map_eq_singleton_iff.mp hrank
  obtain ⟨s, hs, -, heq⟩ := h top (by rw [htop]; rfl)
  have htag : s.signal = some "" := by
    have hmem := List.mem_map_of_mem (f := ServedEdge.signal) hs
    rw [htags] at hmem
    exact List.mem_singleton.mp hmem
  rw [hsignal, htag] at heq
  exact absurd heq (by decide)

end EdgeCausal
