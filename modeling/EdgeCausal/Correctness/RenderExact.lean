import EdgeCausal.Collections.Tally
import EdgeCausal.Correctness.GateSound
import EdgeCausal.Correctness.Render

/-!
# `Correctness.RenderExact` — the live edges, and one held edge for every other pair

A rendering keeps the edges of the pass and adds, for each pair of workloads that none of them joins, the
strongest row of the memory in either direction, if both workloads have a pod now. Pods are put for workloads
only when a row is held, so live and held edges meet in workload space: a pair shown live is never held too.
-/

namespace EdgeCausal

open Lib

variable {cfg : MemoryConfig} {rows : Dict EdgeKey EdgeRow} {vectors : Dict Pod Series} {now : ℚ}
  {graph : CausalGraph} {edges : List Edge} {s : ServedEdge} {u v : Workload} {row : EdgeRow}

/-! ## Workload pairs -/

/-- The workloads an edge joins. -/
def workloadPair (e : Edge) : Workload × Workload := frozenPair (stableWorkload e.src) (stableWorkload e.dst)

theorem workloadPair_congr {e f : Edge} (h : frozenPair e.src e.dst = frozenPair f.src f.dst) :
    workloadPair e = workloadPair f := by
  apply frozenPair_eq_iff.mpr
  rcases frozenPair_eq_iff.mp h with ⟨hsrc, hdst⟩ | ⟨hsrc, hdst⟩
  · exact Or.inl ⟨congrArg stableWorkload hsrc, congrArg stableWorkload hdst⟩
  · exact Or.inr ⟨congrArg stableWorkload hsrc, congrArg stableWorkload hdst⟩

/-- Some edge joins pods of the two workloads, whichever way. -/
def Joins (edges : List Edge) (u v : Workload) : Prop :=
  ∃ e ∈ edges, (stableWorkload e.src = u ∧ stableWorkload e.dst = v) ∨
    (stableWorkload e.src = v ∧ stableWorkload e.dst = u)

theorem mem_livePairs : frozenPair u v ∈ livePairs edges ↔ Joins edges u v := by
  unfold livePairs Joins
  simp only [List.mem_map, frozenPair_eq_iff]

/-- The workload has a pod now. -/
def HasPod (vectors : Dict Pod Series) (wl : Workload) : Prop := ∃ p ∈ vectors.keys, stableWorkload p = wl

theorem hasPod_iff {wl : Workload} : HasPod vectors wl ↔ ∃ p, (workloadPod vectors).get? wl = some p := by
  rw [← Dict.mem_keys_iff_get?]
  unfold HasPod workloadPod
  rw [Dict.mem_keys_ofList, List.map_map, List.mem_map]
  rfl

/-- A row between two workloads, in either direction, that a rendering may hold. -/
structure Qualifies (cfg : MemoryConfig) (rows : Dict EdgeKey EdgeRow) (u v : Workload)
    (row : EdgeRow) : Prop where
  stored : rows.get? (u, v, cfg.signal) = some row ∨ rows.get? (v, u, cfg.signal) = some row
  shown : row.visible = true ∨ 0 < row.baseConf

/-- The qualifying rows are the rivals of the pair. -/
theorem qualifies_iff : Qualifies cfg rows u v row ↔ ∃ key, (key, row) ∈ rivals cfg rows (frozenPair u v) := by
  simp only [mem_rivals]
  constructor
  · rintro ⟨hstored | hstored, hshown⟩
    · exact ⟨(u, v, cfg.signal), hstored, rfl, decide_eq_true ⟨rfl, hshown⟩⟩
    · exact ⟨(v, u, cfg.signal), hstored, frozenPair_comm v u, decide_eq_true ⟨rfl, hshown⟩⟩
  · rintro ⟨⟨a, b, sig⟩, hstored, hpair, hhold⟩
    have hhold' : sig = cfg.signal ∧ (row.visible = true ∨ 0 < row.baseConf) := of_decide_eq_true hhold
    obtain ⟨rfl, hshown⟩ := hhold'
    refine ⟨?_, hshown⟩
    rcases frozenPair_eq_iff.mp hpair with ⟨h1, h2⟩ | ⟨h1, h2⟩
    · dsimp only at h1 h2
      subst h1 h2
      exact Or.inl hstored
    · dsimp only at h1 h2
      subst h1 h2
      exact Or.inr hstored

/-! ## The held edges -/

/-- What a rendering adds to the edges of the pass. -/
def heldEdges (cfg : MemoryConfig) (rows : Dict EdgeKey EdgeRow) (edges : List Edge) (vectors : Dict Pod Series)
    (now : ℚ) : List ServedEdge :=
  (heldRows cfg rows (livePairs edges)).filterMap (heldEdge (workloadPod vectors) now)

theorem render_edges_eq : (render cfg rows graph vectors now).edges
    = graph.edges.map (liveEdge cfg rows) ++ heldEdges cfg rows graph.edges vectors now := rfl

/-- One row is held for a pair. -/
theorem heldRows_nodup (live : List (Workload × Workload)) :
    ((heldRows cfg rows live).map fun kr => frozenPair kr.1.1 kr.1.2.1).Nodup := by
  unfold heldRows
  rw [Dict.values_map_eq_keys]
  · exact Dict.keys_nodup _
  · intro pair kr hget
    rw [foldl_strongest_get?] at hget
    split at hget
    · exact absurd hget (by simp)
    · exact (mem_rivals.mp (firstMax_mem hget)).2.1

/-- A held edge leads from the one workload of its row to the other. -/
theorem heldEdge_leads {kr : EdgeKey × EdgeRow} (h : heldEdge (workloadPod vectors) now kr = some s) :
    stableWorkload s.edge.src = kr.1.1 ∧ stableWorkload s.edge.dst = kr.1.2.1 := by
  obtain ⟨hsrc, hdst, -⟩ := heldEdge_eq_some h
  exact ⟨(workloadPod_spec hsrc).1, (workloadPod_spec hdst).1⟩

theorem heldEdge_pair {kr : EdgeKey × EdgeRow} (h : heldEdge (workloadPod vectors) now kr = some s) :
    workloadPair s.edge = frozenPair kr.1.1 kr.1.2.1 := by
  unfold workloadPair
  rw [(heldEdge_leads h).1, (heldEdge_leads h).2]

/-- A row whose workloads both have a pod is held. -/
theorem exists_heldEdge_of_pods (kr : EdgeKey × EdgeRow) (now : ℚ) (hsrc : HasPod vectors kr.1.1)
    (hdst : HasPod vectors kr.1.2.1) :
    ∃ s, heldEdge (workloadPod vectors) now kr = some s ∧
      s.mark.map EdgeMark.confidence = some (roundAt 3 kr.2.confidence) := by
  obtain ⟨src, hsrc⟩ := hasPod_iff.mp hsrc
  obtain ⟨dst, hdst⟩ := hasPod_iff.mp hdst
  obtain ⟨s, hs, -, -, hconf⟩ := exists_heldEdge kr now hsrc hdst
  exact ⟨s, hs, hconf⟩

theorem heldEdges_pairwise : (heldEdges cfg rows edges vectors now).Pairwise fun s s' =>
    workloadPair s.edge ≠ workloadPair s'.edge := by
  have hrows : ((heldRows cfg rows (livePairs edges)).map fun kr => frozenPair kr.1.1 kr.1.2.1).Nodup :=
    heldRows_nodup _
  unfold heldEdges
  rw [List.pairwise_filterMap]
  rw [List.Nodup, List.pairwise_map] at hrows
  refine hrows.imp ?_
  intro kr kr' hne s hs s' hs'
  rw [heldEdge_pair hs, heldEdge_pair hs']
  exact hne

/-- What is held for a pair is the first of its strongest rivals, if no edge of the pass joins the pair. -/
theorem mem_heldEdges_iff : s ∈ heldEdges cfg rows edges vectors now ∧ workloadPair s.edge = frozenPair u v ↔
    ¬ Joins edges u v ∧ ∃ kr, firstMax (fun kr : EdgeKey × EdgeRow => kr.2.confidence)
      (rivals cfg rows (frozenPair u v)) = some kr ∧ heldEdge (workloadPod vectors) now kr = some s := by
  rw [← mem_livePairs]
  constructor
  · rintro ⟨hs, hpair⟩
    obtain ⟨kr, hkr, hheld⟩ := List.mem_filterMap.mp hs
    obtain ⟨hfree, hmax⟩ := mem_heldRows.mp hkr
    rw [← heldEdge_pair hheld, hpair] at hfree hmax
    exact ⟨hfree, kr, hmax, hheld⟩
  · rintro ⟨hfree, kr, hmax, hheld⟩
    have hpair : frozenPair kr.1.1 kr.1.2.1 = frozenPair u v := (mem_rivals.mp (firstMax_mem hmax)).2.1
    have hkr : kr ∈ heldRows cfg rows (livePairs edges) := by
      rw [mem_heldRows, hpair]
      exact ⟨hfree, hmax⟩
    exact ⟨List.mem_filterMap.mpr ⟨kr, hkr, hheld⟩, (heldEdge_pair hheld).trans hpair⟩

/-- Both workloads of a rival are those of the pair. -/
theorem hasPod_pair {a b : Workload} (h : frozenPair a b = frozenPair u v) :
    HasPod vectors a ∧ HasPod vectors b ↔ HasPod vectors u ∧ HasPod vectors v := by
  rcases frozenPair_eq_iff.mp h with ⟨rfl, rfl⟩ | ⟨rfl, rfl⟩
  · exact Iff.rfl
  · exact and_comm

/-- A held edge needs a pair that no edge of the pass joins, two pods, and a row. -/
theorem mem_heldEdges (hs : s ∈ heldEdges cfg rows edges vectors now)
    (hpair : workloadPair s.edge = frozenPair u v) :
    ¬ Joins edges u v ∧ (HasPod vectors u ∧ HasPod vectors v) ∧ ∃ row, Qualifies cfg rows u v row := by
  obtain ⟨hfree, ⟨key, row⟩, hmax, hheld⟩ := mem_heldEdges_iff.mp ⟨hs, hpair⟩
  obtain ⟨hsrc, hdst, -⟩ := heldEdge_eq_some hheld
  have hends := (hasPod_pair ((heldEdge_pair hheld).symm.trans hpair)).mp
    ⟨hasPod_iff.mpr ⟨_, hsrc⟩, hasPod_iff.mpr ⟨_, hdst⟩⟩
  exact ⟨hfree, hends, row, qualifies_iff.mpr ⟨key, firstMax_mem hmax⟩⟩

/-- These suffice. -/
theorem exists_mem_heldEdges (now : ℚ) (hfree : ¬ Joins edges u v) (hrow : ∃ row, Qualifies cfg rows u v row)
    (hpods : HasPod vectors u ∧ HasPod vectors v) :
    ∃ s ∈ heldEdges cfg rows edges vectors now, workloadPair s.edge = frozenPair u v ∧
      ∃ x, IsGreatest {x | ∃ row, Qualifies cfg rows u v row ∧ row.confidence = x} x ∧
        s.mark.map EdgeMark.confidence = some (roundAt 3 x) := by
  obtain ⟨row, hrow⟩ := hrow
  obtain ⟨key, hkey⟩ := qualifies_iff.mp hrow
  cases hmax : firstMax (fun kr : EdgeKey × EdgeRow => kr.2.confidence) (rivals cfg rows (frozenPair u v)) with
  | none => exact absurd hkey (by rw [firstMax_eq_none_iff.mp hmax]; simp)
  | some best =>
      have hbest := firstMax_mem hmax
      obtain ⟨hsrc, hdst⟩ := (hasPod_pair (mem_rivals.mp hbest).2.1).mpr hpods
      obtain ⟨s, hs, hconf⟩ := exists_heldEdge_of_pods best now hsrc hdst
      obtain ⟨hmem, hpair⟩ := mem_heldEdges_iff.mpr ⟨hfree, best, hmax, hs⟩
      refine ⟨s, hmem, hpair, best.2.confidence, ⟨⟨best.2, qualifies_iff.mpr ⟨best.1, hbest⟩, rfl⟩, ?_⟩, hconf⟩
      rintro x ⟨row', hrow', rfl⟩
      obtain ⟨key', hkey'⟩ := qualifies_iff.mp hrow'
      exact le_firstMax hmax _ hkey'

/-! ## What is rendered -/

/-- The edge comes from the memory. -/
def ServedEdge.isHeld (s : ServedEdge) : Bool := s.mark.any fun mark => mark.source = .memory

theorem liveEdge_isHeld (e : Edge) : (liveEdge cfg rows e).isHeld = false := by
  unfold ServedEdge.isHeld liveEdge
  cases rows.get? (edgeKey cfg e) <;> simp

theorem heldEdge_isHeld {wlPod : Dict Workload Pod} {kr : EdgeKey × EdgeRow}
    (h : heldEdge wlPod now kr = some s) :
    s.isHeld = true := by
  obtain ⟨-, -, -, ⟨mark, hmark, hsource⟩, -⟩ := heldEdge_eq_some h
  unfold ServedEdge.isHeld
  rw [hmark]
  simp [hsource]

/-- The edges rendered from the memory, in order. -/
def ServedGraph.held (g : ServedGraph) : List ServedEdge := g.edges.filter fun s => s.isHeld

/-- Those of the pass. -/
def ServedGraph.live (g : ServedGraph) : List ServedEdge := g.edges.filter fun s => !s.isHeld

/-- Those held for a pair of workloads. -/
def ServedGraph.heldFor (g : ServedGraph) (u v : Workload) : List ServedEdge :=
  under (fun s => workloadPair s.edge) g.held (frozenPair u v)

theorem held_render : (render cfg rows graph vectors now).held =
    heldEdges cfg rows graph.edges vectors now := by
  have hlive : (graph.edges.map (liveEdge cfg rows)).filter (fun s => s.isHeld) = [] := by
    rw [List.filter_eq_nil_iff]
    intro s hs
    obtain ⟨e, -, rfl⟩ := List.mem_map.mp hs
    simp [liveEdge_isHeld]
  have hheld : (heldEdges cfg rows graph.edges vectors now).filter (fun s => s.isHeld)
      = heldEdges cfg rows graph.edges vectors now := by
    rw [List.filter_eq_self]
    intro s hs
    obtain ⟨kr, -, hkr⟩ := List.mem_filterMap.mp hs
    exact heldEdge_isHeld hkr
  unfold ServedGraph.held
  rw [render_edges_eq, List.filter_append, hlive, hheld, List.nil_append]

theorem live_render : (render cfg rows graph vectors now).live = graph.edges.map (liveEdge cfg rows) := by
  have hlive : (graph.edges.map (liveEdge cfg rows)).filter (fun s => !s.isHeld)
      = graph.edges.map (liveEdge cfg rows) := by
    rw [List.filter_eq_self]
    intro s hs
    obtain ⟨e, -, rfl⟩ := List.mem_map.mp hs
    simp [liveEdge_isHeld]
  have hheld : (heldEdges cfg rows graph.edges vectors now).filter (fun s => !s.isHeld) = [] := by
    rw [List.filter_eq_nil_iff]
    intro s hs
    obtain ⟨kr, -, hkr⟩ := List.mem_filterMap.mp hs
    simp [heldEdge_isHeld hkr]
  unfold ServedGraph.live
  rw [render_edges_eq, List.filter_append, hlive, hheld, List.append_nil]

theorem mem_heldFor : s ∈ (render cfg rows graph vectors now).heldFor u v ↔
    s ∈ heldEdges cfg rows graph.edges vectors now ∧ workloadPair s.edge = frozenPair u v := by
  unfold ServedGraph.heldFor under
  rw [held_render, List.mem_filter, decide_eq_true_iff]

/-- No pair of pods carries two edges: edges of the pass do not, held edges are of different workloads, and a
    pair of workloads joined by the pass has no held edge. -/
theorem render_onePerPair (h : OnePerPair graph.edges) :
    OnePerPair ((render cfg rows graph vectors now).edges.map ServedEdge.edge) := by
  unfold OnePerPair at h ⊢
  rw [render_edges_eq, List.map_append, List.map_map, List.pairwise_append]
  have hlive : graph.edges.map (ServedEdge.edge ∘ liveEdge cfg rows) = graph.edges := List.map_id _
  rw [hlive]
  refine ⟨h, ?_, ?_⟩
  · rw [List.pairwise_map]
    refine heldEdges_pairwise.imp ?_
    intro s s' hne heq
    exact hne (workloadPair_congr heq)
  · intro e he f hf heq
    obtain ⟨s, hs, rfl⟩ := List.mem_map.mp hf
    have hpair : workloadPair s.edge = frozenPair (stableWorkload e.src) (stableWorkload e.dst) :=
      (workloadPair_congr heq).symm
    exact (mem_heldEdges hs hpair).1 ⟨e, he, Or.inl ⟨rfl, rfl⟩⟩

/-! ## The result -/

/-- What an exact rendering of a pass is. -/
structure RendersExactly (cfg : MemoryConfig) (rows : Dict EdgeKey EdgeRow) (edges : List Edge)
    (vectors : Dict Pod Series) (g : ServedGraph) : Prop where
  split : g.edges = g.live ++ g.held
  live : g.live.map ServedEdge.edge = edges
  shadowed : ∀ u v, Joins edges u v → g.heldFor u v = []
  held : ∀ u v, ¬ Joins edges u v → (∃ row, Qualifies cfg rows u v row) → HasPod vectors u → HasPod vectors v →
    ∃ s x, g.heldFor u v = [s] ∧ IsGreatest {x | ∃ row, Qualifies cfg rows u v row ∧ row.confidence = x} x ∧
      s.mark.map EdgeMark.confidence = some (roundAt 3 x)
  absent : ∀ u v, ¬ ((∃ row, Qualifies cfg rows u v row) ∧ HasPod vectors u ∧ HasPod vectors v) →
    g.heldFor u v = []
  alive : ∀ s ∈ g.held, s.edge.src ∈ vectors.keys ∧ s.edge.dst ∈ vectors.keys
  onePerPair : OnePerPair (g.edges.map ServedEdge.edge)

/-- **The rendered graph is exact.** The live edges come first, as they are; a pair of workloads they join
    has no held edge, and any other pair has one exactly when a row of the memory qualifies and both
    workloads have a pod, of the greatest confidence among the rows; held edges end at live pods, and no
    pair of pods carries two edges. -/
theorem render_exact (est : Estimators) (args : PassArgs) (cfg : MemoryConfig) (rows : Dict EdgeKey EdgeRow)
    (vectors : Dict Pod Series) (now : ℚ) :
    RendersExactly cfg rows (runPass est args).edges vectors
      (render cfg rows (runPass est args) vectors now) where
  split := by
    rw [held_render, live_render]
    rfl
  live := by
    rw [live_render, List.map_map]
    exact List.map_id _
  shadowed := by
    intro u v hjoins
    unfold ServedGraph.heldFor
    rw [held_render]
    apply under_eq_nil
    intro s hs hpair
    exact (mem_heldEdges hs hpair).1 hjoins
  held := by
    intro u v hfree hrow hu hv
    obtain ⟨s, hs, hpair, x, hx, hconf⟩ := exists_mem_heldEdges now hfree hrow ⟨hu, hv⟩
    refine ⟨s, x, ?_, hx, hconf⟩
    unfold ServedGraph.heldFor
    rw [held_render, ← hpair]
    exact under_eq_singleton heldEdges_pairwise hs
  absent := by
    intro u v hnone
    unfold ServedGraph.heldFor
    rw [held_render]
    apply under_eq_nil
    intro s hs hpair
    obtain ⟨-, hpods, hrow⟩ := mem_heldEdges hs hpair
    exact hnone ⟨hrow, hpods⟩
  alive := by
    intro s hs
    rw [held_render] at hs
    obtain ⟨kr, -, hkr⟩ := List.mem_filterMap.mp hs
    obtain ⟨hsrc, hdst, -⟩ := heldEdge_eq_some hkr
    exact ⟨(workloadPod_spec hsrc).2, (workloadPod_spec hdst).2⟩
  onePerPair := render_onePerPair (passEdges_onePerPair est args)

end EdgeCausal
