import EdgeCausal.Correctness.Backbone
import EdgeCausal.Correctness.MergedVerdict

/-!
# `Correctness.SignalUnion` — when merging the signals keeps their evidence

The merged graph keeps one edge per ordered pair of pods, that of the signal listed last: a weaker edge of a
later signal takes the place of a stronger one. The impact that a signal shows survives the union, in every
order of the signals, exactly when a walk along the surviving edges makes up for each edge that is lost so
(`merge_keeps_evidence_iff`). Then the scores do not depend on the order either.
-/

namespace EdgeCausal

open Lib

/-! ## Impacts of two edge lists -/

section Match
variable {E E' : List Edge} {a v : Pod} {w : ℚ}

/-- Every edge that survives in `E` and can carry impact is matched by a walk along the edges that survive in
    `E'`. -/
def Matched (E E' : List Edge) : Prop :=
  ∀ e, Survives E e → cut ≤ |e.r| * decay →
    ∃ walk, walk ≠ [] ∧ Leads (Survives E') e.src walk e.dst ∧ |e.r| * decay ≤ walkStrength walk

/-- **Matched edges, matched impacts.** -/
theorem Matched.impact (h : Matched E E') (hE : ∀ e ∈ E, |e.r| ≤ 1) (hE' : ∀ e ∈ E', |e.r| ≤ 1)
    (hget : (forwardImpact (buildGraph E) a).get? v = some w) :
    ∃ z, (forwardImpact (buildGraph E') a).get? v = some z ∧ w ≤ z := by
  obtain ⟨hcut, hreach⟩ := (forwardImpact_swept (buildGraph_light hE) a).sound hget
  have hmatch : ∀ n, ∀ o ∈ gains (buildGraph E) n, cut ≤ o.2 →
      ∃ y, o.2 ≤ y ∧ GainReach (gains (buildGraph E')) n o.1 y := by
    intro n o ho hworth
    obtain ⟨e, he, rfl, rfl⟩ := mem_gains_buildGraph.mp ho
    obtain ⟨walk, hne, hleads, hle⟩ := h e he hworth
    exact ⟨walkStrength walk, hle, hleads.gainReach hne⟩
  obtain ⟨y, hwy, hreach'⟩ := hreach.simulate (buildGraph_shares hE) hmatch hcut
  obtain ⟨z, hz, hyz⟩ := (forwardImpact_swept (buildGraph_light hE') a).le_best (buildGraph_shares hE') hreach'
    (hcut.trans hwy)
  exact ⟨z, hz, hwy.trans hyz⟩

theorem impactOn_nonneg (g : CGraph) (a v : Pod) : 0 ≤ impactOn g a v := by
  unfold impactOn
  cases h : (forwardImpact g a).get? v with
  | none => exact le_rfl
  | some w => exact (by norm_num [cut] : (0 : ℚ) ≤ cut).trans (cut_le_impact h)

theorem Matched.impactOn_le (h : Matched E E') (hE : ∀ e ∈ E, |e.r| ≤ 1) (hE' : ∀ e ∈ E', |e.r| ≤ 1)
    (a v : Pod) :
    impactOn (buildGraph E) a v ≤ impactOn (buildGraph E') a v := by
  cases hget : (forwardImpact (buildGraph E) a).get? v with
  | none =>
      have hzero : impactOn (buildGraph E) a v = 0 := by
        unfold impactOn
        rw [hget]
        rfl
      rw [hzero]
      exact impactOn_nonneg _ a v
  | some w =>
      obtain ⟨z, hz, hwz⟩ := h.impact hE hE' hget
      unfold impactOn
      rw [hget, hz]
      exact hwz

/-- Impacts that never fall match the edges. -/
theorem matched_of_impactOn_le (hE' : ∀ e ∈ E', |e.r| ≤ 1)
    (h : ∀ a v, impactOn (buildGraph E) a v ≤ impactOn (buildGraph E') a v) : Matched E E' := by
  intro e he hcut
  have hgain : (e.dst, |e.r| * decay) ∈ gains (buildGraph E) e.src := mem_gains_buildGraph.mpr ⟨e, he, rfl, rfl⟩
  obtain ⟨w, hw, hle⟩ := impact_of_gain hgain hcut
  have hfall := h e.src e.dst
  unfold impactOn at hfall
  rw [hw] at hfall
  cases hget : (forwardImpact (buildGraph E') e.src).get? e.dst with
  | none =>
      rw [hget] at hfall
      have hpos : (0 : ℚ) < cut := by norm_num [cut]
      exact absurd hfall (not_le.mpr (hpos.trans_le (hcut.trans hle)))
  | some z =>
      rw [hget] at hfall
      obtain ⟨-, walk, hne, hleads, rfl⟩ := impact_sound hE' hget
      exact ⟨walk, hne, hleads, hle.trans hfall⟩

/-- Edge lists that match each other have the same impacts. -/
theorem Matched.impact_eq (h : Matched E E') (h' : Matched E' E) (hE : ∀ e ∈ E, |e.r| ≤ 1)
    (hE' : ∀ e ∈ E', |e.r| ≤ 1)
    (a v : Pod) : (forwardImpact (buildGraph E) a).get? v = (forwardImpact (buildGraph E') a).get? v := by
  cases hget : (forwardImpact (buildGraph E) a).get? v with
  | none =>
      cases hget' : (forwardImpact (buildGraph E') a).get? v with
      | none => rfl
      | some z =>
          obtain ⟨w, hw, -⟩ := h'.impact hE' hE hget'
          rw [hget] at hw
          exact absurd hw (by simp)
  | some w =>
      obtain ⟨z, hz, hwz⟩ := h.impact hE hE' hget
      obtain ⟨w', hw', hzw⟩ := h'.impact hE' hE hz
      obtain rfl := Option.some.inj (hget.symm.trans hw')
      rw [hz, le_antisymm hwz hzw]

end Match

/-! ## Rankings of two graphs -/

section Same
variable {g g' : CGraph} {seeds seeds' : List Pod}

/-- The graphs have the same pods, the same impacts and the same pods that nothing points at. -/
structure SameReach (g g' : CGraph) : Prop where
  nodes : g.nodes.Perm g'.nodes
  impact : ∀ n v, (forwardImpact g n).get? v = (forwardImpact g' n).get? v
  sources : ∀ n, g.inDegree n = 0 ↔ g'.inDegree n = 0

theorem SameReach.explain (h : SameReach g g') (hseeds : ∀ n, n ∈ seeds ↔ n ∈ seeds') (n : Pod) :
    explain g seeds n = explain g' seeds' n := by
  have hfilter : (fun kv : Pod × ℚ => decide (kv.1 ∈ seeds)) = fun kv => decide (kv.1 ∈ seeds') := by
    funext kv
    rw [decide_eq_decide]
    exact hseeds kv.1
  have hreach : (((forwardImpact g n).entries.filter (·.1 ∈ seeds)).map Prod.snd).sum
      = (((forwardImpact g' n).entries.filter (·.1 ∈ seeds')).map Prod.snd).sum := by
    rw [hfilter]
    exact (((Dict.entries_perm (h.impact n)).filter _).map Prod.snd).sum_eq
  have hpos : 0 < g.inDegree n ↔ 0 < g'.inDegree n := by
    rw [Nat.pos_iff_ne_zero, Nat.pos_iff_ne_zero, not_iff_not]
    exact h.sources n
  unfold EdgeCausal.explain
  dsimp only
  rw [hreach]
  simp only [hseeds n, h.sources n, hpos]

theorem SameReach.seedSet (h : SameReach g g') (hseeds : ∀ n, n ∈ seeds ↔ n ∈ seeds') (n : Pod) :
    n ∈ seedSet g seeds ↔ n ∈ seedSet g' seeds' := by
  have hon : ∀ n, n ∈ seeds.filter (· ∈ g.nodes) ↔ n ∈ seeds'.filter (· ∈ g'.nodes) := by
    intro n
    rw [List.mem_filter, List.mem_filter, hseeds, decide_eq_true_iff, decide_eq_true_iff, h.nodes.mem_iff]
  have hnil : seeds.filter (· ∈ g.nodes) = [] ↔ seeds'.filter (· ∈ g'.nodes) = [] := by
    rw [List.eq_nil_iff_forall_not_mem, List.eq_nil_iff_forall_not_mem]
    simp only [hon]
  unfold EdgeCausal.seedSet
  dsimp only
  by_cases hn : seeds.filter (· ∈ g.nodes) = []
  · rw [if_pos hn, if_pos (hnil.mp hn)]
    exact h.nodes.mem_iff
  · rw [if_neg hn, if_neg fun hn' => hn (hnil.mpr hn')]
    exact hon n

theorem SameReach.scores (h : SameReach g g') (hseeds : ∀ n, n ∈ seeds ↔ n ∈ seeds') :
    (scores g seeds).Perm (scores g' seeds') := by
  unfold EdgeCausal.scores
  have hmap : g.nodes.map (fun n => (n, EdgeCausal.explain g seeds n))
      = g.nodes.map fun n => (n, EdgeCausal.explain g' seeds' n) := by
    apply List.map_congr_left
    intro n _
    rw [h.explain hseeds]
  rw [hmap]
  exact (h.nodes.map _).filter _

/-- The scores listed, position by position. -/
theorem SameReach.ranked (h : SameReach g g') (hseeds : ∀ n, n ∈ seeds ↔ n ∈ seeds')
    (onsetS onsetS' : Dict Pod ℚ) :
    (ranked g seeds onsetS).map Prod.snd = (ranked g' seeds' onsetS').map Prod.snd := by
  have hperm : ((EdgeCausal.ranked g seeds onsetS).map Prod.snd).Perm
      ((EdgeCausal.ranked g' seeds' onsetS').map Prod.snd) := by
    apply List.Perm.map
    exact (sortOn_perm _ _).trans ((h.scores (h.seedSet hseeds)).trans (sortOn_perm _ _).symm)
  have hsorted : ∀ (g : CGraph) (seeds : List Pod) (onsetS : Dict Pod ℚ),
      ((EdgeCausal.ranked g seeds onsetS).map Prod.snd).Pairwise fun a b => b ≤ a := by
    intro g seeds onsetS
    rw [List.pairwise_map]
    exact ranked_pairwise g seeds onsetS
  refine List.Perm.eq_of_pairwise ?_ (hsorted g seeds onsetS) (hsorted g' seeds' onsetS') hperm
  intro a b _ _ hba hab
  exact le_antisymm hab hba

theorem SameReach.totalScore (h : SameReach g g') (hseeds : ∀ n, n ∈ seeds ↔ n ∈ seeds') :
    totalScore g seeds = totalScore g' seeds' := by
  unfold EdgeCausal.totalScore
  exact ((h.scores (h.seedSet hseeds)).map Prod.snd).sum_eq

end Same

/-! ## Listings of the signals -/

/-- The same signals with the same graphs, listed in some order. -/
def Relisted (perSignal listing : Dict Signal ServedGraph) : Prop := listing.entries.Perm perSignal.entries

/-- The edges of all signals in the order of a listing. -/
def listedEdges (listing : Dict Signal ServedGraph) : List Edge := (mergedEdges listing).map ServedEdge.edge

/-- Two verdicts are the same up to exact ties: every pod has the same score before rounding, and position by
    position the same score is listed, rounded and before rounding. -/
structure SameUpToTies (merged merged' : MergedGraph) : Prop where
  scores : ∀ n, unroundedScore merged n = unroundedScore merged' n
  listed : merged.rootCauseRanking.map RankEntry.score = merged'.rootCauseRanking.map RankEntry.score
  pods : (merged.rootCauseRanking.map fun entry => unroundedScore merged entry.pod)
    = merged'.rootCauseRanking.map fun entry => unroundedScore merged' entry.pod

/-- Merging keeps the evidence of every signal, in every order of the signals: no impact that a signal shows
    falls, and the verdict does not depend on the order. -/
structure KeepsEvidence (perSignal : Dict Signal ServedGraph) (primary : Option Signal) : Prop where
  impact : ∀ listing, Relisted perSignal listing → ∀ sg ∈ perSignal.entries, ∀ a v,
    impactOn (servedGraph sg.2.edges) a v ≤ impactOn (servedGraph (mergedEdges listing)) a v
  order : ∀ listing, Relisted perSignal listing →
    SameUpToTies (mergeGraphs perSignal primary) (mergeGraphs listing primary)

/-- In every order of the signals, where the edge that a signal contributes for an ordered pair of pods can
    carry impact and is overwritten by a weaker one, a walk along the edges that are not overwritten is at least
    as strong. -/
def Compensated (perSignal : Dict Signal ServedGraph) : Prop :=
  ∀ listing, Relisted perSignal listing → ∀ sg ∈ perSignal.entries,
    ∀ e e', Survives (sg.2.edges.map ServedEdge.edge) e → cut ≤ |e.r| * decay →
      Survives (listedEdges listing) e' → e'.src = e.src → e'.dst = e.dst → |e'.r| < |e.r| →
        ∃ walk, walk ≠ [] ∧ Leads (Survives (listedEdges listing)) e.src walk e.dst ∧
          |e.r| * decay ≤ walkStrength walk

section Listing
variable {perSignal listing : Dict Signal ServedGraph} {primary : Option Signal} {sg : Signal × ServedGraph}
  {e : Edge}

theorem mem_listedEdges : e ∈ listedEdges listing ↔
    ∃ sg ∈ listing.entries, e ∈ sg.2.edges.map ServedEdge.edge := by
  unfold listedEdges mergedEdges
  rw [List.map_flatMap, List.mem_flatMap]
  simp only [List.map_map]
  rfl

theorem Relisted.mem_listedEdges (h : Relisted perSignal listing) : e ∈ listedEdges listing ↔
    e ∈ listedEdges perSignal := by
  rw [EdgeCausal.mem_listedEdges, EdgeCausal.mem_listedEdges]
  simp only [h.mem_iff]

theorem Relisted.refl (perSignal : Dict Signal ServedGraph) : Relisted perSignal perSignal := List.Perm.refl _

/-- An edge that survives in the union survives in the graph of its signal. -/
theorem survives_of_listed (h : Survives (listedEdges listing) e) :
    ∃ sg ∈ listing.entries, Survives (sg.2.edges.map ServedEdge.edge) e := by
  have hsplit : ∀ blocks : List (List Edge), Survives blocks.flatten e → ∃ b ∈ blocks, Survives b e := by
    intro blocks
    induction blocks with
    | nil =>
        intro h
        exact absurd h.mem (by simp)
    | cons b blocks ih =>
        rintro ⟨before, after, heq, hlast⟩
        rw [List.flatten_cons, List.append_eq_append_iff] at heq
        rcases heq with ⟨mid, rfl, hrest⟩ | ⟨mid, hb, hrest⟩
        · -- the edge is in a later block
          obtain ⟨b', hb', hsurv⟩ := ih ⟨mid, after, hrest, hlast⟩
          exact ⟨b', List.mem_cons_of_mem _ hb', hsurv⟩
        · cases mid with
          | nil =>
              obtain ⟨b', hb', hsurv⟩ := ih ⟨[], after, hrest.symm, hlast⟩
              exact ⟨b', List.mem_cons_of_mem _ hb', hsurv⟩
          | cons x mid =>
              obtain ⟨rfl, hafter⟩ := List.cons.inj hrest
              refine ⟨b, List.mem_cons_self, before, mid, hb, ?_⟩
              intro e' he'
              exact hlast e' (by rw [hafter]; exact List.mem_append_left _ he')
  have hblocks : listedEdges listing = (listing.entries.map fun sg =>
      sg.2.edges.map ServedEdge.edge).flatten := by
    unfold listedEdges mergedEdges
    rw [List.map_flatMap, List.flatMap_def]
    simp only [List.map_map]
    rfl
  rw [hblocks] at h
  obtain ⟨b, hb, hsurv⟩ := hsplit _ h
  obtain ⟨sg, hsg, rfl⟩ := List.mem_map.mp hb
  exact ⟨sg, hsg, hsurv⟩

/-- Where every loss is made up for, every signal's edges are matched by the union. -/
theorem Compensated.matched (h : Compensated perSignal) (hlisting : Relisted perSignal listing)
    (hsg : sg ∈ perSignal.entries) : Matched (sg.2.edges.map ServedEdge.edge) (listedEdges listing) := by
  intro e he hcut
  have hmem : e ∈ listedEdges listing := mem_listedEdges.mpr ⟨sg, hlisting.mem_iff.mpr hsg, he.mem⟩
  obtain ⟨e', he', hsrc, hdst⟩ := exists_survives hmem
  by_cases hweak : |e'.r| < |e.r|
  · exact h listing hlisting sg hsg e e' he hcut he' hsrc hdst hweak
  · refine ⟨[e'], by simp, ?_, ?_⟩
    · rw [← hsrc, ← hdst]
      exact Leads.single he'
    · rw [walkStrength_cons, walkStrength_nil, mul_one]
      exact mul_le_mul_of_nonneg_right (not_lt.mp hweak) (by norm_num [decay])

/-- Two listings match each other. -/
theorem Compensated.matched_listing {listing' : Dict Signal ServedGraph} (h : Compensated perSignal)
    (hlisting : Relisted perSignal listing) (hlisting' : Relisted perSignal listing') :
    Matched (listedEdges listing) (listedEdges listing') := by
  intro e he hcut
  obtain ⟨sg, hsg, hsurv⟩ := survives_of_listed he
  exact h.matched hlisting' (hlisting.mem_iff.mp hsg) e hsurv hcut

theorem listedEdges_light (hr : ∀ sg ∈ perSignal.entries, ∀ s ∈ sg.2.edges, |s.edge.r| ≤ 1)
    (hlisting : Relisted perSignal listing) : ∀ e ∈ listedEdges listing, |e.r| ≤ 1 := by
  intro e he
  obtain ⟨sg, hsg, he⟩ := mem_listedEdges.mp he
  obtain ⟨s, hs, rfl⟩ := List.mem_map.mp he
  exact hr sg (hlisting.mem_iff.mp hsg) s hs

/-- The graphs of two listings have the same reach. -/
theorem Compensated.sameReach (h : Compensated perSignal)
    (hr : ∀ sg ∈ perSignal.entries, ∀ s ∈ sg.2.edges, |s.edge.r| ≤ 1) (hlisting : Relisted perSignal listing) :
    SameReach (servedGraph (mergedEdges perSignal)) (servedGraph (mergedEdges listing)) := by
  have hrefl := Relisted.refl perSignal
  constructor
  · rw [List.perm_ext_iff_of_nodup (DiGraph.nodes_nodup _) (DiGraph.nodes_nodup _)]
    intro n
    show n ∈ (buildGraph (listedEdges perSignal)).nodes ↔ n ∈ (buildGraph (listedEdges listing)).nodes
    rw [mem_nodes_buildGraph, mem_nodes_buildGraph]
    simp only [hlisting.mem_listedEdges]
  · exact (h.matched_listing hrefl hlisting).impact_eq (h.matched_listing hlisting hrefl)
      (listedEdges_light hr hrefl) (listedEdges_light hr hlisting)
  · intro n
    show (buildGraph (listedEdges perSignal)).inDegree n = 0 ↔ (buildGraph (listedEdges listing)).inDegree n = 0
    rw [← not_iff_not, ← Ne, ← Ne, ← Nat.pos_iff_ne_zero, ← Nat.pos_iff_ne_zero, buildGraph_inDegree_pos,
      buildGraph_inDegree_pos]
    simp only [hlisting.mem_listedEdges]

/-- Two listings have the same symptoms. -/
theorem Relisted.symptom (h : Relisted perSignal listing) (n : Pod) :
    n ∈ mergedSeeds (mergeGraphs perSignal primary) ↔ n ∈ mergedSeeds (mergeGraphs listing primary) := by
  have hfindings : ∀ f, f ∈ mergedFindings perSignal ↔ f ∈ mergedFindings listing := by
    intro f
    unfold mergedFindings
    rw [List.mem_flatMap, List.mem_flatMap]
    simp only [h.mem_iff]
  have hedges : ∀ s, s ∈ mergedEdges perSignal ↔ s ∈ mergedEdges listing := by
    intro s
    unfold mergedEdges
    rw [List.mem_flatMap, List.mem_flatMap]
    simp only [h.mem_iff]
  rw [mem_mergedSeeds, mem_mergedSeeds]
  show ((∃ f ∈ mergedFindings perSignal, _) ∧ ∃ s ∈ mergedEdges perSignal, _) ↔
    ((∃ f ∈ mergedFindings listing, _) ∧ ∃ s ∈ mergedEdges listing, _)
  simp only [hfindings, hedges]

/-- The best scores among the symptoms' explanations, before they are divided and rounded. -/
def bestScores (merged : MergedGraph) : List ℚ :=
  if mergedSeeds merged = [] then [] else
    ((ranked (servedGraph merged.edges) (mergedSeeds merged)
      (findingOnsets (merged.findings.map ServedFinding.finding))).map Prod.snd).take topCauses

/-- A merged ranking lists the best scores, each with its share of the total. -/
theorem mergedRanking_scores (merged : MergedGraph)
    (hmerged : merged.rootCauseRanking = mergedRanking merged.edges merged.findings) :
    (merged.rootCauseRanking.map fun entry => unroundedScore merged entry.pod) = bestScores merged ∧
      merged.rootCauseRanking.map RankEntry.score = (bestScores merged).map fun s =>
        roundAt 3 (s / totalScore (servedGraph merged.edges) (mergedSeeds merged)) := by
  have hrank : merged.rootCauseRanking = if mergedSeeds merged = [] then [] else
      rankRootCauses (servedGraph merged.edges) (mergedSeeds merged)
        (findingOnsets (merged.findings.map ServedFinding.finding)) topCauses := by
    rw [hmerged]
    unfold mergedRanking mergedSeeds
    dsimp only
    split
    · -- without edges or findings there are no symptoms
      rename_i hnone
      rw [if_pos]
      unfold onGraphSeeds
      rw [List.filter_eq_nil_iff]
      intro n hn
      rcases hnone with hedges | hfindings
      · rw [decide_eq_true_iff, mem_nodes_servedGraph, hedges]
        simp
      · rw [hfindings] at hn
        exact absurd hn (by simp)
    · rfl
  by_cases hseeds : mergedSeeds merged = []
  · have hbest : bestScores merged = [] := if_pos hseeds
    rw [hrank, if_pos hseeds, hbest]
    exact ⟨rfl, rfl⟩
  · have hbest : bestScores merged = ((ranked (servedGraph merged.edges) (mergedSeeds merged)
        (findingOnsets (merged.findings.map ServedFinding.finding))).map Prod.snd).take topCauses :=
          if_neg hseeds
    -- a symptom is on the graph, so the graph has an edge
    have hne : (servedGraph merged.edges).numberOfEdges ≠ 0 := by
      obtain ⟨n, hn⟩ := List.exists_mem_of_ne_nil _ hseeds
      obtain ⟨-, s, hs, -⟩ := mem_mergedSeeds.mp hn
      exact numberOfEdges_buildGraph_ne_zero (List.ne_nil_of_mem (List.mem_map_of_mem hs))
    have hlist : merged.rootCauseRanking = ((ranked (servedGraph merged.edges) (mergedSeeds merged)
        (findingOnsets (merged.findings.map ServedFinding.finding))).take topCauses).map fun kv =>
          ⟨kv.1, roundAt 3 (kv.2 / totalScore (servedGraph merged.edges) (mergedSeeds merged)),
            (findingOnsets (merged.findings.map ServedFinding.finding)).get? kv.1⟩ := by
      rw [hrank, if_neg hseeds]
      unfold rankRootCauses
      rw [if_neg hne]
      rfl
    rw [hbest, hlist, List.map_map, List.map_map, ← List.map_take, List.map_map]
    constructor
    · apply List.map_congr_left
      intro kv hkv
      exact (mem_ranked (List.mem_of_mem_take hkv)).1.symm
    · rfl

/-- Where every loss is made up for, the verdict does not depend on the order. -/
theorem Compensated.sameUpToTies (h : Compensated perSignal)
    (hr : ∀ sg ∈ perSignal.entries, ∀ s ∈ sg.2.edges, |s.edge.r| ≤ 1) (hlisting : Relisted perSignal listing) :
    SameUpToTies (mergeGraphs perSignal primary) (mergeGraphs listing primary) := by
  have hreach := h.sameReach hr hlisting
  have hseeds : ∀ n, n ∈ mergedSeeds (mergeGraphs perSignal primary) ↔
    n ∈ mergedSeeds (mergeGraphs listing primary) :=
    hlisting.symptom
  have hnil : mergedSeeds (mergeGraphs perSignal primary) = [] ↔
      mergedSeeds (mergeGraphs listing primary) = [] := by
    rw [List.eq_nil_iff_forall_not_mem, List.eq_nil_iff_forall_not_mem]
    simp only [hseeds]
  obtain ⟨hpods, hlisted⟩ := mergedRanking_scores (mergeGraphs perSignal primary) rfl
  obtain ⟨hpods', hlisted'⟩ := mergedRanking_scores (mergeGraphs listing primary) rfl
  have hbest : bestScores (mergeGraphs perSignal primary) = bestScores (mergeGraphs listing primary) := by
    unfold bestScores
    by_cases hempty : mergedSeeds (mergeGraphs perSignal primary) = []
    · rw [if_pos hempty, if_pos (hnil.mp hempty)]
    · rw [if_neg hempty, if_neg fun hempty' => hempty (hnil.mpr hempty')]
      congr 1
      exact hreach.ranked hseeds _ _
  constructor
  · intro n
    exact hreach.explain (hreach.seedSet hseeds) n
  · rw [hlisted, hlisted', hbest]
    have htotal := hreach.totalScore hseeds
    apply List.map_congr_left
    intro s _
    exact congrArg (fun t => roundAt 3 (s / t)) htotal
  · rw [hpods, hpods', hbest]

end Listing

/-- **Merging keeps the evidence exactly where losses are made up for.** For every map of signals to graphs
    with strengths of at most 1: in every order of the signals no impact that a signal shows falls and the
    verdict stays the same up to exact ties, if and only if in every order each overwritten edge that can carry
    impact is made up for by a walk along the surviving ones. -/
theorem merge_keeps_evidence_iff (perSignal : Dict Signal ServedGraph) (primary : Option Signal)
    (hr : ∀ sg ∈ perSignal.entries, ∀ s ∈ sg.2.edges, |s.edge.r| ≤ 1) :
    KeepsEvidence perSignal primary ↔ Compensated perSignal := by
  constructor
  · intro h listing hlisting sg hsg e _ he hcut _ _ _ _
    exact matched_of_impactOn_le (listedEdges_light hr hlisting) (h.impact listing hlisting sg hsg) e he hcut
  · intro h
    constructor
    · intro listing hlisting sg hsg a v
      refine (h.matched hlisting hsg).impactOn_le ?_ (listedEdges_light hr hlisting) a v
      intro e he
      obtain ⟨s, hs, rfl⟩ := List.mem_map.mp he
      exact hr sg hsg s hs
    · intro listing hlisting
      exact h.sameUpToTies hr hlisting

/-! ### One pair, two signals -/

/-- The archiver contends with the database on a second resource, with half the correlation. -/
def weakServed : ServedGraph :=
  { stormServed with edges := [⟨{ stormEdge with r := 1 / 2 }, none, none⟩] }

/-- Listed last, the weaker signal takes the edge. -/
def contested : Dict Signal ServedGraph := Dict.ofList [("psi_io", stormServed), ("psi_cpu", weakServed)]

theorem contested_light : ∀ sg ∈ contested.entries, ∀ s ∈ sg.2.edges, |s.edge.r| ≤ 1 := by decide +kernel

theorem contested_impacts :
    impactOn (servedGraph (mergedEdges contested)) "log-archiver-6d-x1" "timescaledb-0-y2" = 35 / 100 ∧
      impactOn (servedGraph stormServed.edges) "log-archiver-6d-x1" "timescaledb-0-y2" = 63 / 100 := by
  decide +kernel

/-- The impact of the archiver falls because it contends on a second resource. -/
theorem contested_loses_evidence :
    (∀ sg ∈ contested.entries, ∀ s ∈ sg.2.edges, |s.edge.r| ≤ 1) ∧
    ¬ KeepsEvidence contested (some "psi_io") := by
  refine ⟨contested_light, ?_⟩
  intro h
  have hle := h.impact contested (Relisted.refl contested) ("psi_io", stormServed) List.mem_cons_self
    "log-archiver-6d-x1" "timescaledb-0-y2"
  rw [contested_impacts.1, contested_impacts.2] at hle
  norm_num at hle

theorem merge_keeps_evidence_iff_contested : KeepsEvidence contested none ↔ Compensated contested :=
  merge_keeps_evidence_iff contested none contested_light

end EdgeCausal
