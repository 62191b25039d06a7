import EdgeCausal.Correctness.ForwardImpact

/-!
# `Correctness.Backbone` — what an unmeasured edge changes in a ranking

A seeded pair that was never measured is served with `r = 0`. Such an edge carries no impact, so with its
endpoints already on the graph the only thing it can change is whether a pod has a predecessor: that decides
the upstream penalty and the self-explanation bonus. The ranking is unchanged, for every symptom list, exactly
when every such edge points at a pod that has a predecessor anyway.
-/

namespace EdgeCausal

open Lib

/-! ## When a ranking is empty -/

section Ranking
variable {g g' : CGraph} {seeds : List Pod} {n : Pod}

/-- Only pods with a predecessor feel an impact. -/
theorem inDegree_pos_of_impact {root k : Pod} (hk : k ∈ (forwardImpact g root).keys) : 0 < g.inDegree k := by
  have hvisit : ∀ (entry : Pod × ℚ) (impact : Dict Pod ℚ), True →
      (∀ k ∈ impact.keys, 0 < g.inDegree k) →
      (∀ k ∈ (impactVisit g entry impact).1.keys, 0 < g.inDegree k) ∧
        ∀ new ∈ (impactVisit g entry impact).2, True := by
    intro entry impact _ himpact
    refine ⟨?_, fun _ _ => trivial⟩
    unfold impactVisit
    refine List.foldlRecOn (motive := fun s : Dict Pod ℚ × List (Pod × ℚ) => ∀ k ∈ s.1.keys, 0 < g.inDegree k)
      (g.outEdges entry.1) _ himpact ?_
    intro s hs out hout k hk
    unfold relax at hk
    dsimp only at hk
    split at hk
    · exact hs k hk
    · rcases Dict.mem_keys_set.mp hk with rfl | hk
      · exact DiGraph.inDegree_pos_of_outEdge hout
      · exact hs k hk
  unfold forwardImpact at hk
  rw [impactLoop_eq_drain] at hk
  exact drain_inv (P := fun _ => True) (I := fun impact : Dict Pod ℚ => ∀ k ∈ impact.keys, 0 < g.inDegree k)
    hvisit (fun _ _ => trivial) (by simp) k hk

/-- No impact reaches symptoms without a predecessor. -/
theorem reach_of_sources (h : ∀ s ∈ seeds, g.inDegree s = 0) (n : Pod) :
    ((forwardImpact g n).entries.filter fun kv => kv.1 ∈ seeds) = [] := by
  rw [List.filter_eq_nil_iff]
  rintro ⟨k, v⟩ hkv hk
  have hpos := inDegree_pos_of_impact (Dict.mem_keys_of_mem hkv)
  exact absurd (h k (by simpa using hk)) hpos.ne'

/-- Where they are all the symptoms, such a symptom explains itself alone. -/
theorem explain_of_source (h : ∀ s ∈ seeds, g.inDegree s = 0) (hn : n ∈ seeds) : explain g seeds n = 1 := by
  unfold explain
  dsimp only
  rw [reach_of_sources h n]
  simp [hn, h n hn]

/-- A ranking is empty when there is no edge or nothing explains a symptom. -/
theorem rankRootCauses_eq_nil_iff {onsetS : Dict Pod ℚ} {top : ℕ} :
    rankRootCauses g seeds onsetS (top + 1) = [] ↔
      g.numberOfEdges = 0 ∨ ∀ n ∈ g.nodes, explain g (seedSet g seeds) n ≤ 0 := by
  unfold rankRootCauses
  split
  · rename_i h
    exact ⟨fun _ => Or.inl h, fun _ => rfl⟩
  · rename_i h
    have hlen : (ranked g seeds onsetS).length = (scores g (seedSet g seeds)).length :=
      (sortOn_perm _ _).length_eq
    have hscores : scores g (seedSet g seeds) = [] ↔ ∀ n ∈ g.nodes, explain g (seedSet g seeds) n ≤ 0 := by
      unfold scores
      rw [List.filter_eq_nil_iff]
      simp
    dsimp only
    rw [List.map_eq_nil_iff, List.take_eq_nil_iff, ← List.length_eq_zero_iff, hlen, List.length_eq_zero_iff,
      hscores]
    simp [h]

end Ranking

/-! ## Adding edges of weight zero -/

/-- `g'` is `g` with edges of weight 0 added behind its own, between its own nodes. -/
structure ZeroExtends (g g' : CGraph) : Prop where
  nodes : g'.nodes = g.nodes
  edges : ∃ extra, g'.edges.entries = g.edges.entries ++ extra ∧ ∀ p ∈ extra, p.2.weight = 0

section Extend
variable {g g' : CGraph}

theorem ZeroExtends.refl (g : CGraph) : ZeroExtends g g :=
  ⟨rfl, [], (List.append_nil _).symm, by simp⟩

/-- Adding one more such edge. -/
theorem ZeroExtends.addEdge (h : ZeroExtends g g') {z : Edge} (hz : z.r = 0)
    (hnodes : z.src ∈ g.nodes ∧ z.dst ∈ g.nodes) (hnew : (z.src, z.dst) ∉ g.edges.keys) :
    ZeroExtends g (addEdge g' z) := by
  obtain ⟨extra, hextra, hzero⟩ := h.edges
  constructor
  · show DiGraph.addNode (DiGraph.addNode g'.nodes z.src) z.dst = g.nodes
    rw [h.nodes, DiGraph.addNode_of_mem hnodes.1, DiGraph.addNode_of_mem hnodes.2]
  · refine ⟨Dict.setEntry (z.src, z.dst) ⟨|z.r|, z.lagS, z.evidence⟩ extra, ?_, ?_⟩
    · show Dict.setEntry _ _ g'.edges.entries = _
      rw [hextra]
      exact Dict.setEntry_append hnew
    · intro p hp
      rcases Dict.mem_of_mem_setEntry hp with rfl | hp
      · show |z.r| = 0
        rw [hz, abs_zero]
      · exact hzero p hp

/-- Relaxing an edge of weight 0 does nothing. -/
theorem relax_zero (w : ℚ) (s : Dict Pod ℚ × List (Pod × ℚ)) {out : Pod × EdgeData} (h : out.2.weight = 0) :
    relax w s out = s := by
  unfold relax
  dsimp only
  rw [h, mul_zero, zero_mul]
  exact if_pos (Or.inl (by norm_num [cut]))

theorem ZeroExtends.impactVisit (h : ZeroExtends g g') : impactVisit g' = impactVisit g := by
  obtain ⟨extra, hextra, hzero⟩ := h.edges
  funext entry impact
  unfold EdgeCausal.impactVisit DiGraph.outEdges
  rw [hextra, List.filterMap_append, List.foldl_append]
  refine List.foldlRecOn (motive := fun s => s = (List.foldl (relax entry.2) (impact, []) _)) _ _ rfl ?_
  intro s hs out hout
  obtain ⟨p, hp, hout⟩ := List.mem_filterMap.mp hout
  split at hout
  · obtain rfl := Option.some.inj hout
    rw [relax_zero entry.2 s (hzero p hp), hs]
  · exact absurd hout (by simp)

theorem ZeroExtends.numberOfEdges_le (h : ZeroExtends g g') : g.numberOfEdges ≤ g'.numberOfEdges := by
  obtain ⟨extra, hextra, -⟩ := h.edges
  unfold DiGraph.numberOfEdges
  rw [hextra, List.length_append]
  exact Nat.le_add_right _ _

/-- Forward impact does not see them. -/
theorem ZeroExtends.forwardImpact (h : ZeroExtends g g') (hg : LightEdges g) (root : Pod) :
    forwardImpact g' root = forwardImpact g root := by
  have hfuel : impactFuel g ≤ impactFuel g' :=
    Nat.pow_le_pow_left (Nat.succ_le_succ h.numberOfEdges_le) 6
  rw [← forwardImpact_budget hg root hfuel]
  unfold EdgeCausal.forwardImpact
  rw [impactLoop_eq_drain, impactLoop_eq_drain, h.impactVisit]

/-- **Neutral extensions.** When no pod gains its first predecessor, every ranking stays as it is. -/
theorem ZeroExtends.rankRootCauses (h : ZeroExtends g g') (hg : LightEdges g)
    (hdeg : ∀ v, 0 < g'.inDegree v ↔ 0 < g.inDegree v) (hedges : g.numberOfEdges ≠ 0) (seeds : List Pod)
    (onsetS : Dict Pod ℚ) (top : ℕ) :
    rankRootCauses g' seeds onsetS top = rankRootCauses g seeds onsetS top := by
  have hseeds : seedSet g' seeds = seedSet g seeds := by
    unfold seedSet
    rw [h.nodes]
  have hexplain : ∀ ss n, explain g' ss n = explain g ss n := by
    intro ss n
    -- both the bonus and the penalty depend on whether there is a predecessor, not on how many
    have hzero : g'.inDegree n = 0 ↔ g.inDegree n = 0 := by
      have := hdeg n
      omega
    unfold explain
    simp only [h.forwardImpact hg, hdeg n, hzero]
  have hscores : ∀ ss, scores g' ss = scores g ss := by
    intro ss
    unfold scores
    simp only [h.nodes, hexplain]
  have hedges' : g'.numberOfEdges ≠ 0 := by
    have := h.numberOfEdges_le
    omega
  unfold EdgeCausal.rankRootCauses ranked
  rw [if_neg hedges, if_neg hedges', hseeds, hscores]

end Extend

/-! ## The backbone of an edge list -/

section Backbone
variable {E Z : List Edge}

/-- Unmeasured edges between pods of the graph, on ordered pairs the graph does not join. -/
structure IsBackbone (E Z : List Edge) : Prop where
  unmeasured : ∀ z ∈ Z, z.r = 0
  nodes : ∀ z ∈ Z, z.src ∈ (buildGraph E).nodes ∧ z.dst ∈ (buildGraph E).nodes
  fresh : ∀ z ∈ Z, ∀ e ∈ E, ¬ (e.src = z.src ∧ e.dst = z.dst)

theorem IsBackbone.zeroExtends (h : IsBackbone E Z) : ZeroExtends (buildGraph E) (buildGraph (E ++ Z)) := by
  rw [buildGraph_append]
  refine List.foldlRecOn (motive := ZeroExtends (buildGraph E)) Z _ (ZeroExtends.refl _) ?_
  intro g' hg' z hz
  refine hg'.addEdge (h.unmeasured z hz) (h.nodes z hz) ?_
  intro hkey
  obtain ⟨e, he, hjoin⟩ := buildGraph_joins.mp (Dict.mem_keys_iff_get?.mp hkey)
  exact h.fresh z hz e he hjoin

theorem numberOfEdges_buildGraph_ne_zero (hE : E ≠ []) : (buildGraph E).numberOfEdges ≠ 0 := by
  obtain ⟨e, he⟩ := List.exists_mem_of_ne_nil E hE
  obtain ⟨data, hdata⟩ := buildGraph_joins.mpr ⟨e, he, rfl, rfl⟩
  have hmem := Dict.get?_eq_some_iff.mp hdata
  unfold DiGraph.numberOfEdges
  exact (List.length_pos_of_mem hmem).ne'

theorem IsBackbone.ne_nil (h : IsBackbone E Z) (hZ : Z ≠ []) : E ≠ [] := by
  rintro rfl
  obtain ⟨z, hz⟩ := List.exists_mem_of_ne_nil Z hZ
  exact absurd (h.nodes z hz).1 (by simp [buildGraph])

/-- A pod that gains its first predecessor loses the blame for its own symptom. -/
theorem IsBackbone.rank_changes (h : IsBackbone E Z) (hE : ∀ e ∈ E, |e.r| ≤ 1) {z : Edge} (hz : z ∈ Z)
    (hfirst : ¬ ∃ e ∈ E, e.dst = z.dst) :
    rankRootCauses (buildGraph E) [z.dst] ∅ topCauses ≠ [] ∧
      rankRootCauses (buildGraph (E ++ Z)) [z.dst] ∅ topCauses = [] := by
  have hnode : z.dst ∈ (buildGraph E).nodes := (h.nodes z hz).2
  have hseeds : ∀ g : CGraph, g.nodes = (buildGraph E).nodes → seedSet g [z.dst] = [z.dst] := by
    intro g hg
    unfold seedSet
    simp [hg, hnode]
  have hsource : ∀ s ∈ [z.dst], (buildGraph E).inDegree s = 0 := by
    intro s hs
    obtain rfl := List.mem_singleton.mp hs
    exact Nat.eq_zero_of_not_pos fun hpos => hfirst (buildGraph_inDegree_pos.mp hpos)
  have hpos : 0 < (buildGraph (E ++ Z)).inDegree z.dst :=
    buildGraph_inDegree_pos.mpr ⟨z, List.mem_append_right E hz, rfl⟩
  -- seeded with the pod alone, it explains itself before and nothing explains it after
  constructor
  · rw [ne_eq, topCauses, rankRootCauses_eq_nil_iff, hseeds _ rfl]
    rintro (hedges | hexplain)
    · exact numberOfEdges_buildGraph_ne_zero (h.ne_nil (List.ne_nil_of_mem hz)) hedges
    · have hle := hexplain z.dst hnode
      rw [explain_of_source hsource (List.mem_singleton_self _)] at hle
      exact absurd hle (by norm_num)
  · rw [topCauses, rankRootCauses_eq_nil_iff, hseeds _ h.zeroExtends.nodes]
    right
    intro n _
    have hown : ¬ (n ∈ [z.dst] ∧ (buildGraph (E ++ Z)).inDegree n = 0) := by
      rintro ⟨hn, hzero⟩
      obtain rfl := List.mem_singleton.mp hn
      exact hpos.ne' hzero
    unfold explain
    dsimp only
    rw [h.zeroExtends.forwardImpact (buildGraph_light hE), reach_of_sources hsource n, if_neg hown]
    simp

/-- **Unmeasured edges are neutral for blame exactly when each points at a pod that is pointed at already.** -/
theorem backbone_neutral_iff (E Z : List Edge) (hE : ∀ e ∈ E, |e.r| ≤ 1) (hZ : IsBackbone E Z) :
    (∀ seeds onsetS, rankRootCauses (buildGraph (E ++ Z)) seeds onsetS topCauses
        = rankRootCauses (buildGraph E) seeds onsetS topCauses) ↔
      ∀ z ∈ Z, ∃ e ∈ E, e.dst = z.dst := by
  constructor
  · -- a first predecessor shows in the ranking seeded with the pod it points at
    intro hall z hz
    by_contra hfirst
    obtain ⟨hblamed, hlost⟩ := hZ.rank_changes hE hz hfirst
    exact hblamed (hall [z.dst] ∅ ▸ hlost)
  · intro hdst seeds onsetS
    by_cases hnil : Z = []
    · rw [hnil, List.append_nil]
    · have hedges := numberOfEdges_buildGraph_ne_zero (hZ.ne_nil hnil)
      refine hZ.zeroExtends.rankRootCauses (buildGraph_light hE) ?_ hedges seeds onsetS topCauses
      intro v
      rw [buildGraph_inDegree_pos, buildGraph_inDegree_pos]
      constructor
      · rintro ⟨e, he, rfl⟩
        rcases List.mem_append.mp he with he | he
        · exact ⟨e, he, rfl⟩
        · exact hdst e he
      · rintro ⟨e, he, rfl⟩
        exact ⟨e, List.mem_append_left Z he, rfl⟩

end Backbone

/-! ### A seeded pair that points at the source -/

/-- Two writers stall the database; the first is the storm's source. -/
def stall : List Edge :=
  [⟨"log-archiver-6d-x1", "timescaledb-0-y2", 9 / 10, 5, [.write, .pvc, .temporal]⟩,
    ⟨"cooling-monitor-59-z3", "timescaledb-0-y2", 8 / 10, 5, [.stat, .pvc]⟩]

/-- The writers share the disk too; the seeded direction is the order of their names. -/
def stallBackbone : List Edge := [⟨"cooling-monitor-59-z3", "log-archiver-6d-x1", 0, 0, [.pvc]⟩]

theorem stall_light : ∀ e ∈ stall, |e.r| ≤ 1 := by decide +kernel

theorem stallBackbone_isBackbone : IsBackbone stall stallBackbone := by
  constructor <;> decide +kernel

/-- The unmeasured edge takes the blame from the source and gives it to the other writer. -/
theorem stallBackbone_moves_root :
    (∀ e ∈ stall, |e.r| ≤ 1) ∧ IsBackbone stall stallBackbone ∧
    (rankRootCauses (buildGraph stall) ["log-archiver-6d-x1", "timescaledb-0-y2"] ∅ topCauses).head?.map
        RankEntry.pod = some "log-archiver-6d-x1" ∧
    (rankRootCauses (buildGraph (stall ++ stallBackbone)) ["log-archiver-6d-x1", "timescaledb-0-y2"] ∅
        topCauses).head?.map RankEntry.pod = some "cooling-monitor-59-z3" :=
  ⟨stall_light, stallBackbone_isBackbone, by decide +kernel, by decide +kernel⟩

theorem backbone_neutral_iff_stall :
    (∀ seeds onsetS, rankRootCauses (buildGraph (stall ++ stallBackbone)) seeds onsetS topCauses
        = rankRootCauses (buildGraph stall) seeds onsetS topCauses) ↔
      ∀ z ∈ stallBackbone, ∃ e ∈ stall, e.dst = z.dst :=
  backbone_neutral_iff stall stallBackbone stall_light stallBackbone_isBackbone

end EdgeCausal
