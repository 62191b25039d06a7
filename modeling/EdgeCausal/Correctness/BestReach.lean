import EdgeCausal.Correctness.StrongestWalk

/-!
# `Correctness.BestReach` — `forwardImpact` computes the best decayed reach

On any graph with weights between 0 and 1, cycles and self-loops included, the worklist comes to an end, and
what it stores at a node is the greatest product of decayed weights over the walks of at least one edge from
the root to it, where that is not below the cut. The order in which the edges were added plays no part.
-/

namespace EdgeCausal

open Lib

variable {g g' : CGraph} {root v : Pod} {x : ℚ}

/-- Every weight is a share. -/
def UnitWeights (g : CGraph) : Prop :=
  ∀ u v data, g.edges.get? (u, v) = some data → 0 ≤ data.weight ∧ data.weight ≤ 1

theorem UnitWeights.light (h : UnitWeights g) : LightEdges g := fun u v data hdata => (h u v data hdata).2

theorem UnitWeights.shares (h : UnitWeights g) : Shares g := by
  intro n o ho
  obtain ⟨⟨v, data⟩, hout, rfl⟩ := List.mem_map.mp ho
  obtain ⟨h0, h1⟩ := h n v data (DiGraph.mem_outEdges.mp hout)
  have hdecay : (0 : ℚ) ≤ decay ∧ decay ≤ 1 := by norm_num [decay]
  exact ⟨mul_nonneg h0 hdecay.1, mul_le_one₀ h1 hdecay.1 hdecay.2⟩

/-! ## Termination -/

/-- One turn of `while frontier`. -/
def impactStep (g : CGraph) : List (Pod × ℚ) × Dict Pod ℚ → List (Pod × ℚ) × Dict Pod ℚ
  | ([], impact) => ([], impact)
  | ((node, w) :: rest, impact) =>
      let s := (g.outEdges node).foldl (relax w) (impact, rest)
      (s.2, s.1)

theorem impactStep_eq_drainStep (g : CGraph) : impactStep g = drainStep (impactVisit g) := by
  funext ⟨queue, impact⟩
  cases queue with
  | nil => rfl
  | cons entry rest =>
      have happ := foldl_relax_append entry.2 (g.outEdges entry.1) impact rest []
      rw [List.append_nil] at happ
      simp only [impactStep, drainStep, happ]
      rfl

/-- With weights of at most 1 the loop empties its frontier, and leaves what `forwardImpact` returns. -/
theorem impactStep_terminates (hg : LightEdges g) (root : Pod) :
    ∃ k, (impactStep g)^[k] ([(root, 1)], ∅) = ([], forwardImpact g root) := by
  unfold forwardImpact
  rw [impactStep_eq_drainStep, impactLoop_eq_drain]
  exact drain_terminates (impactVisit_pays hg) (start_ok root) (impactFuel_pays g root)

/-! ## Optimality -/

/-- The worths of the walks of at least one edge. -/
def reaches (g : CGraph) (root v : Pod) : Set ℚ := {w | GainReach (gains g) root v w}

theorem get?_forwardImpact_iff (hg : UnitWeights g) :
    (forwardImpact g root).get? v = some x ↔ IsGreatest (reaches g root v) x ∧ cut ≤ x := by
  have hswept := forwardImpact_swept hg.light root
  constructor
  · intro h
    obtain ⟨hcut, hreach⟩ := hswept.sound h
    refine ⟨⟨hreach, ?_⟩, hcut⟩
    intro w hw
    -- a walk below the cut is below what is stored, the others were offered to the node
    rcases lt_or_ge w cut with hlt | hge
    · exact hlt.le.trans hcut
    · obtain ⟨y, hy, hle⟩ := hswept.le_best hg.shares hw hge
      rw [h] at hy
      exact (Option.some.inj hy) ▸ hle
  · rintro ⟨⟨hreach, hmax⟩, hcut⟩
    obtain ⟨y, hy, hle⟩ := hswept.le_best hg.shares hreach hcut
    have hyx : y ≤ x := hmax (hswept.sound hy).2
    rw [hy, le_antisymm hyx hle]

/-- A node is absent exactly when every walk to it falls below the cut. -/
theorem get?_forwardImpact_eq_none_iff (hg : UnitWeights g) :
    (forwardImpact g root).get? v = none ↔ ∀ w ∈ reaches g root v, w < cut := by
  have hswept := forwardImpact_swept hg.light root
  constructor
  · intro h w hw
    by_contra hge
    obtain ⟨y, hy, -⟩ := hswept.le_best hg.shares hw (not_lt.mp hge)
    rw [h] at hy
    exact absurd hy (by simp)
  · intro h
    rw [Option.eq_none_iff_forall_ne_some]
    intro y hy
    obtain ⟨hcut, hreach⟩ := hswept.sound hy
    exact absurd (h y hreach) (not_lt.mpr hcut)

/-! ## Insertion order -/

theorem mem_gains {n : Pod} {o : Pod × ℚ} :
    o ∈ gains g n ↔ ∃ data, g.edges.get? (n, o.1) = some data ∧ o.2 = data.weight * decay := by
  unfold gains
  rw [List.mem_map]
  constructor
  · rintro ⟨⟨v, data⟩, hout, rfl⟩
    exact ⟨data, DiGraph.mem_outEdges.mp hout, rfl⟩
  · rintro ⟨data, hdata, ho⟩
    exact ⟨(o.1, data), DiGraph.mem_outEdges.mpr hdata, Prod.ext rfl ho.symm⟩

/-- Graphs with the same edges have the same walks. -/
theorem reaches_congr (h : ∀ p, g'.edges.get? p = g.edges.get? p) (root v : Pod) :
    reaches g' root v = reaches g root v := by
  have hgains : ∀ n o, o ∈ gains g' n ↔ o ∈ gains g n := by
    intro n o
    rw [mem_gains, mem_gains, h]
  have hwalk : ∀ {g g' : CGraph}, (∀ n o, o ∈ gains g' n ↔ o ∈ gains g n) →
      ∀ {u w}, GainWalk (gains g') root u w → GainWalk (gains g) root u w := by
    intro g g' hgains u w hw
    induction hw with
    | start => exact GainWalk.start
    | step _ ho ih => exact GainWalk.step ih ((hgains _ _).mp ho)
  ext w
  constructor
  · rintro ⟨u, y, o, hu, ho, hend⟩
    exact ⟨u, y, o, hwalk hgains hu, (hgains u o).mp ho, hend⟩
  · rintro ⟨u, y, o, hu, ho, hend⟩
    exact ⟨u, y, o, hwalk (fun n o => (hgains n o).symm) hu, (hgains u o).mpr ho, hend⟩

theorem forwardImpact_congr (hg : UnitWeights g) (h : ∀ p, g'.edges.get? p = g.edges.get? p) (root v : Pod) :
    (forwardImpact g' root).get? v = (forwardImpact g root).get? v := by
  have hg' : UnitWeights g' := fun u v data hdata => hg u v data ((h (u, v)) ▸ hdata)
  apply Option.ext
  intro x
  rw [get?_forwardImpact_iff hg', get?_forwardImpact_iff hg, reaches_congr h]

/-! ## The result -/

/-- **`forwardImpact` computes the best decayed reach.** With weights in `[0, 1]` the loop comes to an end; a
    node is stored with the greatest product over the walks of at least one edge to it, if that is not below
    the cut, and is absent otherwise; a graph with the same edges, added in any order, gives the same map. -/
theorem forwardImpact_best (g : CGraph) (hg : UnitWeights g) (root : Pod) :
    (∃ k, (impactStep g)^[k] ([(root, 1)], ∅) = ([], forwardImpact g root)) ∧
    (∀ v x, (forwardImpact g root).get? v = some x ↔ IsGreatest (reaches g root v) x ∧ cut ≤ x) ∧
    (∀ v, (forwardImpact g root).get? v = none ↔ ∀ w ∈ reaches g root v, w < cut) ∧
    (∀ g' : CGraph, (∀ p, g'.edges.get? p = g.edges.get? p) → ∀ v,
      (forwardImpact g' root).get? v = (forwardImpact g root).get? v) := by
  refine ⟨impactStep_terminates hg.light root, ?_, ?_, ?_⟩
  · exact fun v x => get?_forwardImpact_iff hg
  · exact fun v => get?_forwardImpact_eq_none_iff hg
  · intro g' h v
    exact forwardImpact_congr hg h root v

/-- A cycle with a self-loop on it. -/
def feedback : CGraph :=
  buildGraph [⟨"cooling-monitor", "timescaledb", 9 / 10, 5, []⟩, ⟨"timescaledb", "timescaledb", 1, 0, []⟩,
    ⟨"timescaledb", "dcim-bridge", 8 / 10, 15, []⟩, ⟨"dcim-bridge", "cooling-monitor", 1, 0, []⟩]

theorem feedback_unitWeights : UnitWeights feedback := by
  have hentries : ∀ p ∈ feedback.edges.entries, 0 ≤ p.2.weight ∧ p.2.weight ≤ 1 := by decide +kernel
  intro u v data h
  exact hentries _ (Dict.get?_eq_some_iff.mp h)

theorem forwardImpact_best_feedback :
    IsGreatest (reaches feedback "cooling-monitor" "dcim-bridge") (3528 / 10000) :=
  (((forwardImpact_best feedback feedback_unitWeights "cooling-monitor").2.1 "dcim-bridge" (3528 / 10000)).mp
    (by decide +kernel)).1

end EdgeCausal
