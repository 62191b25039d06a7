import EdgeCausal.Correctness.ForwardImpact
import EdgeCausal.Graph.BestWalk

/-!
# `Correctness.StrongestWalk` — the impact of a pod is that of its strongest walk

Of several edges between the same ordered pair of pods the causal graph keeps the last one listed
(`get?_buildGraph_iff`). Over the edges that survive, the impact of one pod on another is the strength of the
strongest walk between them, if it is not below the cut (`impact_sound`, `impact_complete`).
-/

namespace EdgeCausal

open Lib

/-! ## Walks as lists of edges -/

/-- The edges lead from one pod to another, each leaving the pod where the one before it ends. -/
inductive Leads (has : Edge → Prop) : Pod → List Edge → Pod → Prop where
  | nil (n : Pod) : Leads has n [] n
  | cons {e : Edge} {walk : List Edge} {v : Pod} (he : has e) (h : Leads has e.dst walk v) :
      Leads has e.src (e :: walk) v

/-- What is left of an impact of 1 at the end of the walk. -/
def walkStrength (walk : List Edge) : ℚ := (walk.map fun e => |e.r| * decay).prod

section Leads
variable {has : Edge → Prop} {root u v : Pod} {walk more : List Edge} {w : ℚ} {e : Edge}

@[simp] theorem walkStrength_nil : walkStrength [] = 1 := rfl

@[simp] theorem walkStrength_cons (e : Edge) (walk : List Edge) :
    walkStrength (e :: walk) = |e.r| * decay * walkStrength walk := by
  unfold walkStrength
  rw [List.map_cons, List.prod_cons]

@[simp] theorem walkStrength_append (walk more : List Edge) : walkStrength (walk ++ more) =
    walkStrength walk * walkStrength more := by
  unfold walkStrength
  rw [List.map_append, List.prod_append]

theorem Leads.append (h : Leads has root walk u) (h' : Leads has u more v) :
    Leads has root (walk ++ more) v := by
  induction h with
  | nil n => exact h'
  | cons he _ ih => exact Leads.cons he (ih h')

theorem Leads.eq_of_nil (h : Leads has root walk v) (hnil : walk = []) : root = v := by
  cases h with
  | nil => rfl
  | cons => exact absurd hnil (by simp)

theorem Leads.single (he : has e) : Leads has e.src [e] e.dst := Leads.cons he (Leads.nil e.dst)

/-- A walk goes on by an edge, which takes its share. -/
theorem Leads.concat (h : Leads has root walk e.src) (he : has e) : Leads has root (walk ++ [e]) e.dst ∧
    walkStrength (walk ++ [e]) = walkStrength walk * (|e.r| * decay) := by
  refine ⟨h.append (Leads.single he), ?_⟩
  rw [walkStrength_append, walkStrength_cons, walkStrength_nil, mul_one]

/-- A walk is a list of edges of its strength. -/
theorem Walk.leads (h : Walk has root v w) : ∃ walk, Leads has root walk v ∧ walkStrength walk = w := by
  induction h with
  | start => exact ⟨[], Leads.nil root, rfl⟩
  | @step v w e _ he hsrc _ ih =>
      obtain ⟨walk, hleads, rfl⟩ := ih
      subst hsrc
      obtain ⟨hmore, hstrength⟩ := hleads.concat he
      exact ⟨walk ++ [e], hmore, hstrength.trans (mul_assoc _ _ _).symm⟩

theorem Reaches.leads (h : Reaches has root v) : ∃ walk, walk ≠ [] ∧ Leads has root walk v ∧
    cut ≤ walkStrength walk := by
  obtain ⟨u, w, hwalk, e, he, hsrc, hdst, hcut⟩ := h
  obtain ⟨walk, hleads, rfl⟩ := hwalk.leads
  subst hsrc hdst
  obtain ⟨hmore, hstrength⟩ := hleads.concat he
  refine ⟨walk ++ [e], by simp, hmore, ?_⟩
  calc cut ≤ walkStrength walk * |e.r| * decay := hcut
    _ = walkStrength (walk ++ [e]) := by rw [hstrength, mul_assoc]

end Leads

/-! ## Edges that survive -/

/-- The edge is the last one listed for its ordered pair of pods. -/
def Survives (edges : List Edge) (e : Edge) : Prop :=
  ∃ before after, edges = before ++ e :: after ∧ ∀ e' ∈ after, ¬ (e'.src = e.src ∧ e'.dst = e.dst)

section Survivors
variable {edges more : List Edge} {e e' : Edge} {u v : Pod}

theorem Survives.mem (h : Survives edges e) : e ∈ edges := by
  obtain ⟨before, after, rfl, -⟩ := h
  exact List.mem_append_right _ List.mem_cons_self

theorem survives_concat : Survives (edges ++ [e']) e ↔
    e = e' ∨ (Survives edges e ∧ ¬ (e'.src = e.src ∧ e'.dst = e.dst)) := by
  constructor
  · rintro ⟨before, after, heq, hlast⟩
    rcases List.eq_nil_or_concat after with rfl | ⟨after, x, rfl⟩
    · obtain ⟨-, hx⟩ := List.append_inj' heq rfl
      exact Or.inl (List.cons.inj hx).1.symm
    · rw [List.concat_eq_append, ← List.cons_append, ← List.append_assoc] at heq
      obtain ⟨rfl, hx⟩ := List.append_inj' heq rfl
      obtain rfl := (List.cons.inj hx).1
      refine Or.inr ⟨⟨before, after, rfl, ?_⟩, hlast e' (by simp)⟩
      intro e'' hmem
      exact hlast e'' (by simp [hmem])
  · rintro (rfl | ⟨⟨before, after, rfl, hlast⟩, hne⟩)
    · exact ⟨edges, [], rfl, by simp⟩
    · refine ⟨before, after ++ [e'], by simp, ?_⟩
      intro e'' hmem
      rcases List.mem_append.mp hmem with hmem | hmem
      · exact hlast e'' hmem
      · obtain rfl := List.mem_singleton.mp hmem
        exact hne

/-- **What the graph keeps**: of every ordered pair the last edge listed. -/
theorem get?_buildGraph_iff {data : EdgeData} : (buildGraph edges).edges.get? (u, v) = some data ↔
    ∃ e, Survives edges e ∧ e.src = u ∧ e.dst = v ∧ data = ⟨|e.r|, e.lagS, e.evidence⟩ := by
  induction edges using List.reverseRecOn with
  | nil =>
      constructor
      · intro h
        exact absurd h (by simp [buildGraph])
      · rintro ⟨e, h, -⟩
        exact absurd h.mem List.not_mem_nil
  | append_singleton edges last ih =>
      rw [buildGraph_append, List.foldl_cons, List.foldl_nil, get?_addEdge]
      simp only [survives_concat]
      by_cases hp : (u, v) = (last.src, last.dst)
      · obtain ⟨rfl, rfl⟩ := Prod.mk.inj hp
        rw [if_pos rfl]
        constructor
        · intro h
          exact ⟨last, Or.inl rfl, rfl, rfl, (Option.some.inj h).symm⟩
        · rintro ⟨e, rfl | ⟨-, hne⟩, hsrc, hdst, rfl⟩
          · rfl
          · exact absurd ⟨hsrc.symm, hdst.symm⟩ hne
      · rw [if_neg hp, ih]
        constructor
        · rintro ⟨e, he, rfl, rfl, hdata⟩
          refine ⟨e, Or.inr ⟨he, ?_⟩, rfl, rfl, hdata⟩
          rintro ⟨hsrc, hdst⟩
          exact hp (by rw [hsrc, hdst])
        · rintro ⟨e, rfl | ⟨he, -⟩, rfl, rfl, hdata⟩
          · exact absurd rfl hp
          · exact ⟨e, he, rfl, rfl, hdata⟩

/-- Every listed pair has a surviving edge. -/
theorem exists_survives (he : e ∈ edges) : ∃ e', Survives edges e' ∧ e'.src = e.src ∧ e'.dst = e.dst := by
  obtain ⟨data, hdata⟩ := buildGraph_joins.mpr ⟨e, he, rfl, rfl⟩
  obtain ⟨e', he', hsrc, hdst, -⟩ := get?_buildGraph_iff.mp hdata
  exact ⟨e', he', hsrc, hdst⟩

end Survivors

/-! ## The loop sweeps the walks -/

/-- What the edges leaving a pod make of an impact of 1. -/
def gains (g : CGraph) (n : Pod) : List (Pod × ℚ) := (g.outEdges n).map fun o => (o.1, o.2.weight * decay)

section Sweep
variable {g g' : CGraph} {edges : List Edge} {a v : Pod} {w : ℚ}

theorem impactVisit_eq_propagate (g : CGraph) : impactVisit g = propagate (gains g) cut := by
  funext entry impact
  unfold impactVisit propagate gains
  rw [List.foldl_map]
  congr 1
  funext s o
  unfold relax improve
  rw [mul_assoc]

/-- Every gain is a share. -/
def Shares (g : CGraph) : Prop := ∀ n, ∀ o ∈ gains g n, 0 ≤ o.2 ∧ o.2 ≤ 1

theorem forwardImpact_swept (hg : LightEdges g) (root : Pod) :
    Swept (gains g) cut root [] (forwardImpact g root) := by
  have hinit : Swept (gains g) cut root [(root, 1)] ∅ := Swept.init (gains g) cut root
  unfold forwardImpact
  rw [impactLoop_eq_drain]
  refine drain_exhausts (impactVisit_pays hg) ?_ (start_ok root) (impactFuel_pays g root) hinit
  intro entry queue impact _ h
  rw [impactVisit_eq_propagate]
  exact h.visit (by norm_num [cut])

/-- The surviving edges are the gains of the graph. -/
theorem mem_gains_buildGraph {n : Pod} {o : Pod × ℚ} :
    o ∈ gains (buildGraph edges) n ↔ ∃ e, Survives edges e ∧ e.src = n ∧ o = (e.dst, |e.r| * decay) := by
  unfold gains
  rw [List.mem_map]
  constructor
  · rintro ⟨⟨v, data⟩, hout, rfl⟩
    obtain ⟨e, he, hsrc, rfl, rfl⟩ := get?_buildGraph_iff.mp (DiGraph.mem_outEdges.mp hout)
    exact ⟨e, he, hsrc, rfl⟩
  · rintro ⟨e, he, hsrc, rfl⟩
    refine ⟨(e.dst, ⟨|e.r|, e.lagS, e.evidence⟩), ?_, rfl⟩
    exact DiGraph.mem_outEdges.mpr (get?_buildGraph_iff.mpr ⟨e, he, hsrc, rfl, rfl⟩)

theorem buildGraph_shares (h : ∀ e ∈ edges, |e.r| ≤ 1) : Shares (buildGraph edges) := by
  intro n o ho
  obtain ⟨e, he, -, rfl⟩ := mem_gains_buildGraph.mp ho
  have hdecay : (0 : ℚ) ≤ decay ∧ decay ≤ 1 := by norm_num [decay]
  exact ⟨mul_nonneg (abs_nonneg e.r) hdecay.1, mul_le_one₀ (h e he.mem) hdecay.1 hdecay.2⟩

/-- A walk of gains is a walk along surviving edges. -/
theorem leads_of_gainWalk (h : GainWalk (gains (buildGraph edges)) a v w) :
    ∃ walk, Leads (Survives edges) a walk v ∧ walkStrength walk = w := by
  induction h with
  | start => exact ⟨[], Leads.nil a, rfl⟩
  | step _ ho ih =>
      obtain ⟨walk, hleads, rfl⟩ := ih
      obtain ⟨e, he, rfl, rfl⟩ := mem_gains_buildGraph.mp ho
      exact ⟨walk ++ [e], hleads.concat he⟩

theorem leads_of_gainReach (h : GainReach (gains (buildGraph edges)) a v w) :
    ∃ walk, walk ≠ [] ∧ Leads (Survives edges) a walk v ∧ walkStrength walk = w := by
  obtain ⟨u, x, o, hwalk, ho, rfl, rfl⟩ := h
  obtain ⟨walk, hleads, rfl⟩ := leads_of_gainWalk hwalk
  obtain ⟨e, he, rfl, rfl⟩ := mem_gains_buildGraph.mp ho
  exact ⟨walk ++ [e], by simp, hleads.concat he⟩

/-- A walk along surviving edges is a walk of gains. -/
theorem Leads.gainReach {walk : List Edge} (h : Leads (Survives edges) a walk v) (hne : walk ≠ []) :
    GainReach (gains (buildGraph edges)) a v (walkStrength walk) := by
  induction h with
  | nil n => exact absurd rfl hne
  | @cons e walk v he h ih =>
      have hgain : (e.dst, |e.r| * decay) ∈ gains (buildGraph edges) e.src :=
        mem_gains_buildGraph.mpr ⟨e, he, rfl, rfl⟩
      rw [walkStrength_cons]
      by_cases hnil : walk = []
      · obtain rfl := h.eq_of_nil hnil
        refine ⟨e.src, 1, (e.dst, |e.r| * decay), GainWalk.start, hgain, rfl, ?_⟩
        rw [hnil, walkStrength_nil, one_mul, mul_one]
      · have hfirst : GainWalk (gains (buildGraph edges)) e.src e.dst (1 * (|e.r| * decay)) :=
          GainWalk.step GainWalk.start hgain
        rw [one_mul] at hfirst
        exact hfirst.trans_reach (ih hnil)

/-! ## Impact -/

/-- The impact of one pod on another; none is 0. -/
def impactOn (g : CGraph) (a v : Pod) : ℚ := ((forwardImpact g a).get? v).getD 0

theorem impact_sound (hedges : ∀ e ∈ edges, |e.r| ≤ 1)
    (h : (forwardImpact (buildGraph edges) a).get? v = some w) :
    cut ≤ w ∧ ∃ walk, walk ≠ [] ∧ Leads (Survives edges) a walk v ∧ walkStrength walk = w := by
  obtain ⟨hcut, hreach⟩ := (forwardImpact_swept (buildGraph_light hedges) a).sound h
  exact ⟨hcut, leads_of_gainReach hreach⟩

theorem impact_complete (hedges : ∀ e ∈ edges, |e.r| ≤ 1) {walk : List Edge}
    (h : Leads (Survives edges) a walk v)
    (hne : walk ≠ []) (hcut : cut ≤ walkStrength walk) :
    ∃ w, (forwardImpact (buildGraph edges) a).get? v = some w ∧ walkStrength walk ≤ w :=
  (forwardImpact_swept (buildGraph_light hedges) a).le_best (buildGraph_shares hedges) (h.gainReach hne) hcut

/-- The first visit offers every successor of the root its gain, and nobody loses what was offered. -/
theorem impact_of_gain {o : Pod × ℚ} (ho : o ∈ gains g a) (hcut : cut ≤ o.2) :
    ∃ w, (forwardImpact g a).get? o.1 = some w ∧ o.2 ≤ w := by
  have hclosed : Closed (gains g) cut (forwardImpact g a) a 1 := by
    obtain ⟨k, hk⟩ : ∃ k, impactFuel g = k + 1 :=
      Nat.exists_eq_succ_of_ne_zero (by unfold impactFuel; positivity)
    unfold forwardImpact
    rw [impactLoop_eq_drain, hk, impactVisit_eq_propagate]
    show Closed (gains g) cut (drain (propagate (gains g) cut) k _ (propagate (gains g) cut (a, 1) ∅).1) a 1
    apply drain_inv (P := fun _ => True) (I := fun best : Dict Pod ℚ => Closed (gains g) cut best a 1)
    · intro entry best _ h
      exact ⟨h.propagate entry, fun _ _ => trivial⟩
    · exact fun _ _ => trivial
    · exact propagate_closed (by norm_num [cut]) (a, 1) ∅
  have hoffer := hclosed o ho
  rw [one_mul] at hoffer
  exact hoffer hcut

/-- No impact is below the cut. -/
theorem cut_le_impact (h : (forwardImpact g a).get? v = some w) : cut ≤ w := by
  unfold forwardImpact at h
  rw [impactLoop_eq_drain, impactVisit_eq_propagate] at h
  refine drain_inv (P := fun _ => True) (I := fun best : Dict Pod ℚ => ∀ v w, best.get? v = some w → cut ≤ w)
    ?_ (fun _ _ => trivial) (fun v w h => absurd h (by simp)) v w h
  intro entry best _ hbest
  refine ⟨?_, fun _ _ => trivial⟩
  intro v w hget
  obtain ⟨hqueued, hstored⟩ := mem_propagate (gains g) cut entry best
  rcases hstored v w hget with hold | hnew
  · exact hbest v w hold
  · exact (hqueued (v, w) hnew).1

end Sweep

/-! ## Who explains something -/

section Explain
variable {g : CGraph} {seeds : List Pod} {n v : Pod} {w : ℚ} {edges : List Edge}

theorem reach_nonneg (g : CGraph) (seeds : List Pod) (n : Pod) :
    0 ≤ (((forwardImpact g n).entries.filter (·.1 ∈ seeds)).map Prod.snd).sum := by
  apply List.sum_nonneg
  intro x hx
  obtain ⟨kv, hkv, rfl⟩ := List.mem_map.mp hx
  have hget : (forwardImpact g n).get? kv.1 = some kv.2 :=
    Dict.get?_eq_some_iff.mpr (List.mem_of_mem_filter hkv)
  exact (by norm_num [cut] : (0 : ℚ) ≤ cut).trans (cut_le_impact hget)

/-- A pod with impact on a symptom has a score. -/
theorem explain_pos_of_impact (hv : v ∈ seeds) (hget : (forwardImpact g n).get? v = some w) :
    0 < explain g seeds n := by
  have hreach : 0 < (((forwardImpact g n).entries.filter (·.1 ∈ seeds)).map Prod.snd).sum := by
    have hmem : (v, w) ∈ (forwardImpact g n).entries.filter (·.1 ∈ seeds) :=
      List.mem_filter.mpr ⟨Dict.get?_eq_some_iff.mp hget, by simpa using hv⟩
    apply List.sum_pos
    · intro x hx
      obtain ⟨kv, hkv, rfl⟩ := List.mem_map.mp hx
      have hkget : (forwardImpact g n).get? kv.1 = some kv.2 :=
        Dict.get?_eq_some_iff.mpr (List.mem_of_mem_filter hkv)
      exact (by norm_num [cut] : (0 : ℚ) < cut).trans_le (cut_le_impact hkget)
    · intro hnil
      rw [List.map_eq_nil_iff] at hnil
      rw [hnil] at hmem
      exact absurd hmem List.not_mem_nil
  unfold explain upstreamPenalty
  dsimp only
  split_ifs <;> linarith

/-- A symptom that nothing points at has a score. -/
theorem explain_pos_of_source (hn : n ∈ seeds) (hdeg : g.inDegree n = 0) : 0 < explain g seeds n := by
  have hreach := reach_nonneg g seeds n
  unfold explain
  dsimp only
  rw [if_neg (by omega), if_pos ⟨hn, hdeg⟩]
  linarith

/-- Where every edge below the cut leads up some order of the pods, some pod explains another or itself. -/
theorem exists_explained {β : Type} [LinearOrder β] (hne : edges ≠ []) (rank : Pod → β)
    (h : ∀ e ∈ edges, cut ≤ |e.r| * decay ∨ rank e.src < rank e.dst) :
    ∃ n ∈ (buildGraph edges).nodes, 0 < explain (buildGraph edges) (buildGraph edges).nodes n := by
  by_cases hstrong : ∃ e, Survives edges e ∧ cut ≤ |e.r| * decay
  · obtain ⟨e, he, hcut⟩ := hstrong
    have hgain : (e.dst, |e.r| * decay) ∈ gains (buildGraph edges) e.src :=
      mem_gains_buildGraph.mpr ⟨e, he, rfl, rfl⟩
    obtain ⟨w, hw, -⟩ := impact_of_gain hgain hcut
    refine ⟨e.src, mem_nodes_buildGraph.mpr ⟨e, he.mem, Or.inl rfl⟩, ?_⟩
    exact explain_pos_of_impact (mem_nodes_buildGraph.mpr ⟨e, he.mem, Or.inr rfl⟩) hw
  · -- every edge leads up, so nothing points at a lowest pod
    have hnodes : (buildGraph edges).nodes.toFinset.Nonempty := by
      obtain ⟨e, he⟩ := List.exists_mem_of_ne_nil edges hne
      exact ⟨e.src, List.mem_toFinset.mpr (mem_nodes_buildGraph.mpr ⟨e, he, Or.inl rfl⟩)⟩
    obtain ⟨n, hn, hmin⟩ := Finset.exists_min_image _ rank hnodes
    rw [List.mem_toFinset] at hn
    refine ⟨n, hn, explain_pos_of_source hn ?_⟩
    by_contra hdeg
    obtain ⟨e, he, hdst⟩ := buildGraph_inDegree_pos.mp (Nat.pos_of_ne_zero hdeg)
    obtain ⟨e', he', hsrc', hdst'⟩ := exists_survives he
    have hup : rank e'.src < rank e'.dst :=
      (h e' he'.mem).resolve_left fun hcut => hstrong ⟨e', he', hcut⟩
    have hlow := hmin e'.src (List.mem_toFinset.mpr (mem_nodes_buildGraph.mpr ⟨e', he'.mem, Or.inl rfl⟩))
    rw [hdst', hdst] at hup
    exact absurd hlow (not_le.mpr hup)

end Explain

end EdgeCausal
