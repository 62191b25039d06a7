import EdgeCausal.Engine.Ranking
import EdgeCausal.Graph.Worklist

/-!
# `Correctness.ForwardImpact` — the causal graph of an edge list and its impact worklist

What `buildGraph` keeps of a list of edges, and the worklist that runs over it (`impactLoop_eq_drain`). With
weights of at most 1 an entry loses at least three tenths of its weight on every edge and is dropped below
`cut`, so the budget `impactFuel` is never the reason to stop (`forwardImpact_budget`). A pod has impact only
where a walk along the edges ends (`reaches_of_impact`).
-/

namespace EdgeCausal

open Lib

variable {g : CGraph} {edges : List Edge} {u v : Pod}

/-! ## The graph of an edge list -/

theorem get?_addEdge (g : CGraph) (e : Edge) (p : Pod × Pod) :
    (addEdge g e).edges.get? p
      = if p = (e.src, e.dst) then some ⟨|e.r|, e.lagS, e.evidence⟩ else g.edges.get? p :=
  Dict.get?_set ..

theorem foldl_addEdge_joins (g : CGraph) (edges : List Edge) (u v : Pod) :
    (∃ data, (edges.foldl addEdge g).edges.get? (u, v) = some data) ↔
      (∃ data, g.edges.get? (u, v) = some data) ∨ ∃ e ∈ edges, e.src = u ∧ e.dst = v := by
  induction edges generalizing g with
  | nil => simp
  | cons e es ih =>
      rw [List.foldl_cons, ih, get?_addEdge]
      by_cases h : e.src = u ∧ e.dst = v
      · obtain ⟨rfl, rfl⟩ := h
        simp
      · have hne : ¬ (u, v) = (e.src, e.dst) := fun he =>
          h ⟨(congrArg Prod.fst he).symm, (congrArg Prod.snd he).symm⟩
        rw [if_neg hne]
        simp only [List.mem_cons, exists_eq_or_imp, h, false_or]

/-- Two pods are joined in the graph exactly when an edge of the list joins them. -/
theorem buildGraph_joins : (∃ data, (buildGraph edges).edges.get? (u, v) = some data) ↔
    ∃ e ∈ edges, e.src = u ∧ e.dst = v := by
  unfold buildGraph
  rw [foldl_addEdge_joins]
  simp

theorem buildGraph_inDegree_pos : 0 < (buildGraph edges).inDegree v ↔ ∃ e ∈ edges, e.dst = v := by
  rw [DiGraph.inDegree_pos_iff]
  simp only [buildGraph_joins]
  constructor
  · rintro ⟨u, e, he, -, hdst⟩
    exact ⟨e, he, hdst⟩
  · rintro ⟨e, he, hdst⟩
    exact ⟨e.src, e, he, rfl, hdst⟩

/-- The nodes are the endpoints. -/
theorem mem_nodes_buildGraph : v ∈ (buildGraph edges).nodes ↔ ∃ e ∈ edges, e.src = v ∨ e.dst = v := by
  have h : ∀ (edges : List Edge) (g : CGraph), v ∈ (edges.foldl addEdge g).nodes ↔
      v ∈ g.nodes ∨ ∃ e ∈ edges, e.src = v ∨ e.dst = v := by
    intro edges
    induction edges with
    | nil => simp
    | cons e es ih =>
        intro g
        rw [List.foldl_cons, ih]
        unfold addEdge
        rw [DiGraph.mem_nodes_addEdge, or_assoc]
        simp only [List.mem_cons, exists_eq_or_imp, eq_comm (a := v)]
  unfold buildGraph
  rw [h]
  simp

/-- The weight of an edge of the graph is the strength of an edge of the list between the same pods. -/
theorem buildGraph_weight {data : EdgeData} (h : (buildGraph edges).edges.get? (u, v) = some data) :
    ∃ e ∈ edges, e.src = u ∧ e.dst = v ∧ data.weight = |e.r| := by
  revert h
  unfold buildGraph
  refine List.foldlRecOn (motive := fun g : CGraph => g.edges.get? (u, v) = some data →
    ∃ e ∈ edges, e.src = u ∧ e.dst = v ∧ data.weight = |e.r|) edges _ (fun h => absurd h (by simp)) ?_
  intro g hg e he h
  rw [get?_addEdge] at h
  split at h
  · rename_i hp
    obtain ⟨rfl, rfl⟩ := Prod.mk.inj hp
    obtain rfl := Option.some.inj h
    exact ⟨e, he, rfl, rfl, rfl⟩
  · exact hg h

theorem buildGraph_append (edges more : List Edge) :
    buildGraph (edges ++ more) = more.foldl addEdge (buildGraph edges) :=
  List.foldl_append

/-- Pairs keep their place in the graph. -/
theorem prefix_keys_foldl_addEdge (g : CGraph) (edges : List Edge) :
    g.edges.keys <+: (edges.foldl addEdge g).edges.keys := by
  refine List.foldlRecOn (motive := fun g' : CGraph => g.edges.keys <+: g'.edges.keys) edges _
    (List.prefix_refl _) ?_
  intro g' h e _
  refine h.trans ?_
  show g'.edges.keys <+: (g'.edges.set (e.src, e.dst) ⟨|e.r|, e.lagS, e.evidence⟩).keys
  by_cases hmem : (e.src, e.dst) ∈ g'.edges.keys
  · rw [Dict.keys_set_of_mem hmem]
  · rw [Dict.keys_set_of_not_mem hmem]
    exact List.prefix_append _ _

/-- Edges of different pairs stand in the graph as they were listed. -/
theorem keys_buildGraph (h : (edges.map fun e => (e.src, e.dst)).Nodup) :
    (buildGraph edges).edges.keys = edges.map fun e => (e.src, e.dst) := by
  induction edges using List.reverseRecOn with
  | nil => rfl
  | append_singleton edges e ih =>
      rw [List.map_append, List.nodup_append] at h
      have hnew : (e.src, e.dst) ∉ (buildGraph edges).edges.keys := by
        rw [ih h.1]
        intro hmem
        exact h.2.2 _ hmem _ (by simp) rfl
      rw [buildGraph_append]
      show ((buildGraph edges).edges.set (e.src, e.dst) ⟨|e.r|, e.lagS, e.evidence⟩).keys = _
      rw [Dict.keys_set_of_not_mem hnew, ih h.1, List.map_append]
      rfl

/-! ## The loop as a worklist -/

/-- Visit one queue entry: relax its out-edges, starting with nothing queued. -/
def impactVisit (g : CGraph) (entry : Pod × ℚ) (impact : Dict Pod ℚ) : Dict Pod ℚ × List (Pod × ℚ) :=
  (g.outEdges entry.1).foldl (relax entry.2) (impact, [])

/-- Relaxing appends to whatever is queued already. -/
theorem foldl_relax_append (w : ℚ) (outs : List (Pod × EdgeData)) (impact : Dict Pod ℚ)
    (queue queued : List (Pod × ℚ)) :
    outs.foldl (relax w) (impact, queue ++ queued)
      = ((outs.foldl (relax w) (impact, queued)).1, queue ++ (outs.foldl (relax w) (impact, queued)).2) := by
  induction outs generalizing impact queued with
  | nil => rfl
  | cons out outs ih =>
      rw [List.foldl_cons, List.foldl_cons]
      unfold relax
      dsimp only
      split
      · exact ih impact queued
      · rw [List.append_assoc]
        exact ih _ _

theorem impactLoop_eq_drain (n : ℕ) (queue : List (Pod × ℚ)) (impact : Dict Pod ℚ) :
    impactLoop g n queue impact = drain (impactVisit g) n queue impact := by
  induction n generalizing queue impact with
  | zero => rfl
  | succ n ih =>
      cases queue with
      | nil => rfl
      | cons entry rest =>
          obtain ⟨node, w⟩ := entry
          have happ := foldl_relax_append w (g.outEdges node) impact rest []
          rw [List.append_nil] at happ
          show impactLoop g n ((g.outEdges node).foldl (relax w) (impact, rest)).2
            ((g.outEdges node).foldl (relax w) (impact, rest)).1 = _
          rw [happ, ih]
          rfl

/-! ## What a visit queues -/

/-- An entry queued by a visit goes along an out-edge and is not below the cut. -/
theorem mem_impactVisit {entry new : Pod × ℚ} {impact : Dict Pod ℚ} (h : new ∈ (impactVisit g entry impact).2) :
    ∃ data, (new.1, data) ∈ g.outEdges entry.1 ∧ new.2 = entry.2 * data.weight * decay ∧ cut ≤ new.2 := by
  unfold impactVisit at h
  revert h
  refine List.foldlRecOn (motive := fun s : Dict Pod ℚ × List (Pod × ℚ) => new ∈ s.2 → ∃ data,
    (new.1, data) ∈ g.outEdges entry.1 ∧ new.2 = entry.2 * data.weight * decay ∧ cut ≤ new.2)
    (g.outEdges entry.1) _ (fun h => absurd h (by simp)) ?_
  intro s hs out hout hnew
  unfold relax at hnew
  dsimp only at hnew
  split at hnew
  · exact hs hnew
  · rename_i hcut
    rcases List.mem_append.mp hnew with hnew | hnew
    · exact hs hnew
    · obtain rfl := List.mem_singleton.mp hnew
      exact ⟨out.2, hout, rfl, not_lt.mp fun hlt => hcut (Or.inl hlt)⟩

/-- No more entries are queued than there are out-edges. -/
theorem length_impactVisit (entry : Pod × ℚ) (impact : Dict Pod ℚ) :
    (impactVisit g entry impact).2.length ≤ (g.outEdges entry.1).length := by
  have h : ∀ (outs : List (Pod × EdgeData)) (s : Dict Pod ℚ × List (Pod × ℚ)),
      (outs.foldl (relax entry.2) s).2.length ≤ s.2.length + outs.length := by
    intro outs
    induction outs with
    | nil => exact fun s => le_rfl
    | cons out outs ih =>
        intro s
        rw [List.foldl_cons, List.length_cons]
        refine (ih _).trans ?_
        unfold relax
        dsimp only
        split
        · omega
        · rw [List.length_append, List.length_singleton]; omega
  exact (h (g.outEdges entry.1) (impact, [])).trans (by simp)

/-! ## The budget is enough -/

/-- No edge is heavier than 1. -/
def LightEdges (g : CGraph) : Prop := ∀ u v data, g.edges.get? (u, v) = some data → data.weight ≤ 1

theorem buildGraph_light (h : ∀ e ∈ edges, |e.r| ≤ 1) : LightEdges (buildGraph edges) := by
  intro u v data hdata
  obtain ⟨e, he, -, -, hweight⟩ := buildGraph_weight hdata
  exact hweight ▸ h e he

/-- How many more decays an entry of this weight survives. -/
def survives (w : ℚ) : ℕ := Nat.findGreatest (fun k => cut ≤ w * decay ^ k) 5

/-- The number of walks of at most `k` steps, `m` ways on at each. -/
def walks (m : ℕ) : ℕ → ℕ
  | 0 => 1
  | k + 1 => 1 + m * walks m k

theorem walks_le (m k : ℕ) : walks m k ≤ (m + 1) ^ k := by
  induction k with
  | zero => exact le_rfl
  | succ k ih =>
      have hpos : 1 ≤ (m + 1) ^ k := Nat.one_le_pow _ _ (Nat.succ_pos m)
      calc walks m (k + 1) = 1 + m * walks m k := rfl
        _ ≤ (m + 1) ^ k + m * (m + 1) ^ k := Nat.add_le_add hpos (Nat.mul_le_mul_left m ih)
        _ = (m + 1) ^ (k + 1) := by ring

theorem walks_mono (m : ℕ) {j k : ℕ} (h : j ≤ k) : walks m j ≤ walks m k := by
  have hstep : ∀ i, walks m i ≤ walks m (i + 1) := by
    intro i
    induction i with
    | zero => exact Nat.le_add_right 1 _
    | succ i ih => exact Nat.add_le_add_left (Nat.mul_le_mul_left m ih) 1
  exact monotone_nat_of_le_succ hstep h

/-- The entries a drop in weight leaves room for: one edge costs one decay. -/
theorem survives_lt {w nw : ℚ} (hw : w ≤ 1) (hcut : cut ≤ nw) (hle : nw ≤ w * decay) :
    survives nw < survives w := by
  have hdecay : (0 : ℚ) < decay := by norm_num [decay]
  have hnw : cut ≤ nw * decay ^ survives nw := by
    refine Nat.findGreatest_spec (P := fun k => cut ≤ nw * decay ^ k) (Nat.zero_le 5) ?_
    simpa using hcut
  have hnext : cut ≤ w * decay ^ (survives nw + 1) := by
    refine hnw.trans ?_
    calc nw * decay ^ survives nw ≤ w * decay * decay ^ survives nw :=
          mul_le_mul_of_nonneg_right hle (pow_nonneg hdecay.le _)
      _ = w * decay ^ (survives nw + 1) := by ring
  -- six decays take a weight of 1 below the cut
  have hfive : survives nw + 1 ≤ 5 := by
    by_contra hgt
    have heq : survives nw = 5 := le_antisymm (Nat.findGreatest_le 5) (by omega)
    rw [heq] at hnext
    have hsix : w * decay ^ 6 ≤ 1 * decay ^ 6 := mul_le_mul_of_nonneg_right hw (pow_nonneg hdecay.le _)
    have := hnext.trans hsix
    norm_num [cut, decay] at this
  exact Nat.le_findGreatest hfive hnext

/-- An entry of the worklist: at least the cut, at most the root's weight. -/
def EntryOk (entry : Pod × ℚ) : Prop := cut ≤ entry.2 ∧ entry.2 ≤ 1

theorem length_outEdges_le (u : Pod) : (g.outEdges u).length ≤ g.numberOfEdges :=
  List.length_filterMap_le _ _

/-- Every visit pays for what it queues. -/
theorem impactVisit_pays (hg : LightEdges g) :
    Pays (impactVisit g) EntryOk fun entry => walks g.numberOfEdges (survives entry.2) := by
  have hcutpos : (0 : ℚ) < cut := by norm_num [cut]
  -- an edge of weight at most 1 costs the entry at least one decay
  have hdrop : ∀ entry impact new, EntryOk entry → new ∈ (impactVisit g entry impact).2 →
      cut ≤ new.2 ∧ new.2 ≤ entry.2 * decay := by
    intro entry impact new hok hnew
    obtain ⟨data, hout, heq, hcut⟩ := mem_impactVisit hnew
    have hpos : 0 ≤ entry.2 := hcutpos.le.trans hok.1
    have hweight : entry.2 * data.weight ≤ entry.2 :=
      mul_le_of_le_one_right hpos (hg _ _ _ (DiGraph.mem_outEdges.mp hout))
    exact ⟨hcut, heq ▸ mul_le_mul_of_nonneg_right hweight (by norm_num [decay])⟩
  constructor
  · intro entry impact hok new hnew
    obtain ⟨hcut, hle⟩ := hdrop entry impact new hok hnew
    have hpos : 0 ≤ entry.2 := hcutpos.le.trans hok.1
    have : entry.2 * decay ≤ entry.2 := mul_le_of_le_one_right hpos (by norm_num [decay])
    exact ⟨hcut, (hle.trans this).trans hok.2⟩
  · intro entry impact hok
    have hlt : ∀ new ∈ (impactVisit g entry impact).2, survives new.2 < survives entry.2 := by
      intro new hnew
      obtain ⟨hcut, hle⟩ := hdrop entry impact new hok hnew
      exact survives_lt hok.2 hcut hle
    show ((impactVisit g entry impact).2.map fun e => walks g.numberOfEdges (survives e.2)).sum
      < walks g.numberOfEdges (survives entry.2)
    -- an entry that survives no decay queues nothing; otherwise each one it queues survives fewer
    rcases hs : survives entry.2 with _ | s
    · have hnil : (impactVisit g entry impact).2 = [] := by
        rw [List.eq_nil_iff_forall_not_mem]
        intro new hnew
        exact absurd (hlt new hnew) (by omega)
      rw [hnil]
      exact Nat.one_pos
    · have hsum : ((impactVisit g entry impact).2.map fun e => walks g.numberOfEdges (survives e.2)).sum
          ≤ (impactVisit g entry impact).2.length • walks g.numberOfEdges s := by
        rw [← List.length_map (f := fun e : Pod × ℚ => walks g.numberOfEdges (survives e.2))]
        refine List.sum_le_card_nsmul _ _ ?_
        intro x hx
        obtain ⟨new, hnew, rfl⟩ := List.mem_map.mp hx
        have hs' := hlt new hnew
        exact walks_mono _ (by omega)
      have hlen : (impactVisit g entry impact).2.length ≤ g.numberOfEdges :=
        (length_impactVisit entry impact).trans (length_outEdges_le entry.1)
      show _ < 1 + g.numberOfEdges * walks g.numberOfEdges s
      have hmul := Nat.mul_le_mul_right (walks g.numberOfEdges s) hlen
      rw [smul_eq_mul] at hsum
      omega

/-- The budget covers the queue the loop starts with. -/
theorem impactFuel_pays (g : CGraph) (root : Pod) :
    ([(root, (1 : ℚ))].map fun entry => walks g.numberOfEdges (survives entry.2)).sum ≤ impactFuel g := by
  show walks g.numberOfEdges (survives 1) + 0 ≤ impactFuel g
  rw [Nat.add_zero]
  calc walks g.numberOfEdges (survives 1) ≤ walks g.numberOfEdges 6 :=
        walks_mono _ ((Nat.findGreatest_le 5).trans (by omega))
    _ ≤ impactFuel g := walks_le _ _

theorem start_ok (root : Pod) : ∀ entry ∈ [(root, (1 : ℚ))], EntryOk entry := by
  intro entry hentry
  obtain rfl := List.mem_singleton.mp hentry
  exact ⟨by norm_num [cut], le_rfl⟩

/-- **The budget is enough**: with weights of at most 1, every budget from `impactFuel` on computes the same
    impact. -/
theorem forwardImpact_budget (hg : LightEdges g) (root : Pod) {n : ℕ} (hn : impactFuel g ≤ n) :
    impactLoop g n [(root, 1)] ∅ = forwardImpact g root := by
  unfold forwardImpact
  rw [impactLoop_eq_drain, impactLoop_eq_drain]
  exact drain_budget (impactVisit_pays hg) (start_ok root) ((impactFuel_pays g root).trans hn)
    (impactFuel_pays g root)

/-! ## What impact means -/

/-- A walk along the edges of `has` from `root`, and what is left of a weight of 1 at its end: every edge
    multiplies by its strength and by the decay, and a walk stops where it would fall below the cut. -/
inductive Walk (has : Edge → Prop) (root : Pod) : Pod → ℚ → Prop where
  | start : Walk has root root 1
  | step {v : Pod} {w : ℚ} {e : Edge} (h : Walk has root v w) (he : has e) (hsrc : e.src = v)
      (hcut : cut ≤ w * |e.r| * decay) : Walk has root e.dst (w * |e.r| * decay)

/-- A walk of at least one edge ends at `v`. -/
def Reaches (has : Edge → Prop) (root v : Pod) : Prop :=
  ∃ u w, Walk has root u w ∧ ∃ e, has e ∧ e.src = u ∧ e.dst = v ∧ cut ≤ w * |e.r| * decay

section Walks
variable {has has' : Edge → Prop} {root : Pod} {w : ℚ}

/-- An edge without weight carries nothing past the cut. -/
theorem weight_ne_zero {e : Edge} (h : cut ≤ w * |e.r| * decay) : e.r ≠ 0 := by
  intro hr
  rw [hr, abs_zero, mul_zero, zero_mul] at h
  exact absurd h (by decide +kernel)

theorem Walk.mono (h : Walk has root v w) (hsub : ∀ e, has e → has' e) : Walk has' root v w := by
  induction h with
  | start => exact Walk.start
  | step _ he hsrc hcut ih => exact Walk.step ih (hsub _ he) hsrc hcut

/-- More edges reach more. -/
theorem Reaches.mono (h : Reaches has root v) (hsub : ∀ e, has e → has' e) : Reaches has' root v := by
  obtain ⟨u, w, hwalk, e, he, hend⟩ := h
  exact ⟨u, w, hwalk.mono hsub, e, hsub e he, hend⟩

/-- The first edge of a walk leaves its root and has a weight. -/
theorem Walk.leaves (h : Walk has root v w) : v = root ∨ ∃ e, has e ∧ e.src = root ∧ e.r ≠ 0 := by
  induction h with
  | start => exact Or.inl rfl
  | step _ he hsrc hcut ih =>
      rcases ih with rfl | hleaves
      · exact Or.inr ⟨_, he, hsrc, weight_ne_zero hcut⟩
      · exact Or.inr hleaves

theorem Reaches.leaves (h : Reaches has root v) : ∃ e, has e ∧ e.src = root ∧ e.r ≠ 0 := by
  obtain ⟨u, w, hwalk, e, he, hsrc, -, hcut⟩ := h
  rcases hwalk.leaves with rfl | hleaves
  · exact ⟨e, he, hsrc, weight_ne_zero hcut⟩
  · exact hleaves

end Walks

/-- **Impact is felt only along walks.** -/
theorem reaches_of_impact {root v : Pod} (h : v ∈ (forwardImpact (buildGraph edges) root).keys) :
    Reaches (· ∈ edges) root v := by
  have hout : ∀ {u v data}, (v, data) ∈ (buildGraph edges).outEdges u →
      ∃ e ∈ edges, e.src = u ∧ e.dst = v ∧ data.weight = |e.r| :=
    fun h => buildGraph_weight (DiGraph.mem_outEdges.mp h)
  have hvisit : ∀ (entry : Pod × ℚ) (impact : Dict Pod ℚ), Walk (· ∈ edges) root entry.1 entry.2 →
      (∀ v ∈ impact.keys, Reaches (· ∈ edges) root v) →
      (∀ v ∈ (impactVisit (buildGraph edges) entry impact).1.keys, Reaches (· ∈ edges) root v) ∧
        ∀ new ∈ (impactVisit (buildGraph edges) entry impact).2, Walk (· ∈ edges) root new.1 new.2 := by
    intro entry impact hwalk himpact
    constructor
    · unfold impactVisit
      refine List.foldlRecOn (motive := fun s : Dict Pod ℚ × List (Pod × ℚ) =>
        ∀ v ∈ s.1.keys, Reaches (· ∈ edges) root v)
        _ _ himpact ?_
      rintro s hs ⟨v, data⟩ hmem k hk
      unfold relax at hk
      dsimp only at hk
      split at hk
      · exact hs k hk
      · rename_i hcut
        rcases Dict.mem_keys_set.mp hk with rfl | hk
        · -- the key just written is at the end of the walk to the entry, one edge on
          obtain ⟨e, he, hsrc, hdst, hweight⟩ := hout hmem
          rw [not_or, not_lt, hweight] at hcut
          exact ⟨entry.1, entry.2, hwalk, e, he, hsrc, hdst, hcut.1⟩
        · exact hs k hk
    · rintro ⟨v, w⟩ hnew
      obtain ⟨data, hmem, heq, hcut⟩ := mem_impactVisit hnew
      obtain ⟨e, he, hsrc, rfl, hweight⟩ := hout hmem
      rw [hweight] at heq
      dsimp only at heq hcut
      subst heq
      exact Walk.step hwalk he hsrc hcut
  unfold forwardImpact at h
  rw [impactLoop_eq_drain] at h
  have hstart : ∀ entry ∈ [(root, (1 : ℚ))], Walk (· ∈ edges) root entry.1 entry.2 := by
    intro entry hentry
    obtain rfl := List.mem_singleton.mp hentry
    exact Walk.start
  exact drain_inv (P := fun entry : Pod × ℚ => Walk (· ∈ edges) root entry.1 entry.2)
    (I := fun impact : Dict Pod ℚ => ∀ v ∈ impact.keys, Reaches (· ∈ edges) root v) hvisit hstart (by simp) v h

/-! ## What a score means -/

/-- A pod with a positive score reaches a symptom, or is one that nothing points at. -/
theorem reaches_of_explain {seeds : List Pod} {n : Pod} (h : 0 < explain (buildGraph edges) seeds n) :
    (∃ s ∈ seeds, Reaches (· ∈ edges) n s) ∨ (n ∈ seeds ∧ (buildGraph edges).inDegree n = 0) := by
  by_contra hnone
  rw [not_or] at hnone
  obtain ⟨hreach, hself⟩ := hnone
  have hempty : ((forwardImpact (buildGraph edges) n).entries.filter fun kv => kv.1 ∈ seeds) = [] := by
    rw [List.filter_eq_nil_iff]
    rintro ⟨k, v⟩ hkv hk
    exact hreach ⟨k, by simpa using hk, reaches_of_impact (Dict.mem_keys_of_mem hkv)⟩
  unfold explain at h
  dsimp only at h
  rw [hempty, if_neg hself] at h
  simp at h

/-- Every line of a ranking names a pod of the graph with a positive score. -/
theorem explain_pos_of_ranked {seeds : List Pod} {onsetS : Dict Pod ℚ} {top : ℕ} {entry : RankEntry}
    (h : entry ∈ rankRootCauses g seeds onsetS top) :
    entry.pod ∈ g.nodes ∧ 0 < explain g (seedSet g seeds) entry.pod := by
  unfold rankRootCauses at h
  split at h
  · exact absurd h (by simp)
  · obtain ⟨⟨pod, score⟩, hkv, rfl⟩ := List.mem_map.mp h
    have hscore := List.mem_of_mem_take hkv
    unfold ranked at hscore
    rw [mem_sortOn] at hscore
    unfold scores at hscore
    obtain ⟨hmem, hpos⟩ := List.mem_filter.mp hscore
    obtain ⟨n, hn, heq⟩ := List.mem_map.mp hmem
    obtain ⟨rfl, rfl⟩ := Prod.mk.inj heq
    exact ⟨hn, by simpa using hpos⟩

end EdgeCausal
