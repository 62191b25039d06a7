import EdgeCausal.Correctness.BestReach
import Mathlib.Algebra.BigOperators.Intervals

/-!
# `Correctness.ChainRoot` — the head of a chain in the ranking

On a chain a pod explains what is downstream of it, by the product of the decayed weights in between as long as
that is not below the cut (`get?_forwardImpact_chain`). The head is the one pod that is not halved, and has a
bonus if it is a symptom, which no other pod can make up for: it then ranks first. Otherwise it ranks first
exactly when what it still explains is not less than half of what any other pod explains (`chain_root`).
-/

namespace EdgeCausal

open Lib

/-! ## The first of a ranking -/

/-- Where an onset stands in a ranking; an unknown one is last. -/
def onsetRank (onsetS : Dict Pod ℚ) (v : Pod) : WithTop ℚ :=
  match onsetS.get? v with
  | some t => (t : WithTop ℚ)
  | none => ⊤

/-- The one pod is ranked before the other: by its score, its onset, its place among the nodes. -/
def Outranks (g : CGraph) (seeds : List Pod) (onsetS : Dict Pod ℚ) (v u : Pod) : Prop :=
  explain g seeds u < explain g seeds v ∨ explain g seeds u = explain g seeds v ∧
    (onsetRank onsetS v < onsetRank onsetS u ∨
      onsetRank onsetS v = onsetRank onsetS u ∧ [v, u].Sublist g.nodes)

section First
variable {g : CGraph} {seeds : List Pod} {onsetS : Dict Pod ℚ} {u v : Pod} {top : ℕ}

theorem mem_scores {kv : Pod × ℚ} :
    kv ∈ scores g seeds ↔ kv.1 ∈ g.nodes ∧ kv.2 = explain g seeds kv.1 ∧ 0 < kv.2 := by
  unfold scores
  rw [List.mem_filter, List.mem_map, decide_eq_true_iff, ← and_assoc]
  refine and_congr_left fun _ => ?_
  constructor
  · rintro ⟨n, hn, rfl⟩
    exact ⟨hn, rfl⟩
  · rintro ⟨hn, hx⟩
    exact ⟨kv.1, hn, Prod.ext rfl hx.symm⟩

theorem scores_keys : ((scores g seeds).map Prod.fst).Sublist g.nodes := by
  have h : ((g.nodes.map fun n => (n, explain g seeds n)).map Prod.fst) = g.nodes := by
    rw [List.map_map]
    exact List.map_id _
  unfold scores
  conv_rhs => rw [← h]
  exact List.filter_sublist.map Prod.fst

theorem scores_nodup : (scores g seeds).Nodup := (scores_keys.nodup g.nodes_nodup).of_map Prod.fst

/-- Scores stand as the nodes do. -/
theorem sublist_scores_iff (hv : 0 < explain g seeds v) (hu : 0 < explain g seeds u) :
    [(v, explain g seeds v), (u, explain g seeds u)].Sublist (scores g seeds) ↔ [v, u].Sublist g.nodes := by
  constructor
  · intro h
    exact (h.map Prod.fst).trans scores_keys
  · intro h
    have hmap := (h.map fun n => (n, explain g seeds n)).filter fun kv => 0 < kv.2
    simpa [scores, hv, hu] using hmap

theorem rankKey_eq (kv : Pod × ℚ) : rankKey onsetS kv = toLex (-kv.2, onsetRank onsetS kv.1) := rfl

/-- Keys and places in the list of scores say who is ranked before whom. -/
theorem outranks_iff (hv : 0 < explain g seeds v) (hu : 0 < explain g seeds u) :
    (rankKey onsetS (v, explain g seeds v) < rankKey onsetS (u, explain g seeds u) ∨
      rankKey onsetS (v, explain g seeds v) = rankKey onsetS (u, explain g seeds u) ∧
        [(v, explain g seeds v), (u, explain g seeds u)].Sublist (scores g seeds)) ↔
            Outranks g seeds onsetS v u := by
  unfold Outranks
  rw [sublist_scores_iff hv hu, rankKey_eq, rankKey_eq, Prod.Lex.toLex_lt_toLex, toLex_inj, Prod.mk.injEq]
  dsimp only
  rw [neg_lt_neg_iff, neg_inj, eq_comm (a := explain g seeds v)]
  tauto

/-- **Who is ranked first**: a pod with a score that is ranked before every other pod. -/
theorem ranked_first_iff (hedges : g.numberOfEdges ≠ 0) (htop : 0 < top) :
    (rankRootCauses g seeds onsetS top).head?.map RankEntry.pod = some v ↔
      v ∈ g.nodes ∧ 0 < explain g (seedSet g seeds) v ∧
        ∀ u ∈ g.nodes, u ≠ v → Outranks g (seedSet g seeds) onsetS v u := by
  have hhead : (rankRootCauses g seeds onsetS top).head?.map RankEntry.pod =
      (ranked g seeds onsetS).head?.map Prod.fst := by
    unfold rankRootCauses
    rw [if_neg hedges]
    dsimp only
    rw [List.head?_map, List.head?_take, if_neg htop.ne', Option.map_map]
    rfl
  have hscored : (ranked g seeds onsetS).head?.map Prod.fst = some v ↔
      (ranked g seeds onsetS).head? = some (v, explain g (seedSet g seeds) v) := by
    constructor
    · intro h
      obtain ⟨⟨w, x⟩, hkv, rfl⟩ := Option.map_eq_some_iff.mp h
      have hmem := List.mem_of_mem_head? hkv
      unfold ranked at hmem
      rw [mem_sortOn] at hmem
      rw [hkv, ← (mem_scores.mp hmem).2.1]
    · intro h
      rw [h]
      rfl
  rw [hhead, hscored]
  unfold ranked
  constructor
  · intro h
    have hmem := List.mem_of_mem_head? h
    rw [mem_sortOn] at hmem
    obtain ⟨hv, -, hpos⟩ := mem_scores.mp hmem
    refine ⟨hv, hpos, ?_⟩
    intro u hu hne
    by_cases hup : 0 < explain g (seedSet g seeds) u
    · refine (outranks_iff hpos hup).mp ((head?_sortOn_iff scores_nodup hmem).mp h _
        (mem_scores.mpr ⟨hu, rfl, hup⟩) ?_)
      exact fun heq => hne (congrArg Prod.fst heq)
    · exact Or.inl ((not_lt.mp hup).trans_lt hpos)
  · rintro ⟨hv, hpos, hall⟩
    rw [head?_sortOn_iff scores_nodup (mem_scores.mpr ⟨hv, rfl, hpos⟩)]
    rintro ⟨u, x⟩ hu hne
    obtain ⟨hnode, hx, hup⟩ := mem_scores.mp hu
    dsimp only at hnode hx hup
    subst hx
    exact (outranks_iff hpos hup).mpr (hall u hnode fun heq => hne (by rw [heq]))

end First

/-! ## Chains -/

/-- The graph is the chain of the pods `p 0`, …, `p n`, in whatever order it was listed, the edge that leaves
    `p k` of weight `w k`. -/
structure IsChain (g : CGraph) (n : ℕ) (p : ℕ → Pod) (w : ℕ → ℚ) : Prop where
  inj : ∀ i ≤ n, ∀ j ≤ n, p i = p j → i = j
  nodes : ∀ v, v ∈ g.nodes ↔ ∃ i ≤ n, p i = v
  edges : ∀ u v x, (∃ data, g.edges.get? (u, v) = some data ∧ data.weight = x) ↔
    ∃ k < n, p k = u ∧ p (k + 1) = v ∧ w k = x
  weights : ∀ k < n, 6 / 10 ≤ w k ∧ w k ≤ 1

/-- What is left of an impact of 1 on the way from `p i` to `p j`. -/
def chainGain (w : ℕ → ℚ) (i j : ℕ) : ℚ := ∏ k ∈ Finset.Ico i j, w k * decay

/-- The symptoms that `p i` explains. -/
def explained (n : ℕ) (p : ℕ → Pod) (w : ℕ → ℚ) (seeds : List Pod) (i : ℕ) : Finset ℕ :=
  (Finset.Ioc i n).filter fun j => p j ∈ seeds ∧ cut ≤ chainGain w i j

/-- How much of the symptoms `p i` explains. -/
def chainReach (n : ℕ) (p : ℕ → Pod) (w : ℕ → ℚ) (seeds : List Pod) (i : ℕ) : ℚ :=
  ∑ j ∈ explained n p w seeds i, chainGain w i j

@[simp] theorem chainGain_self (w : ℕ → ℚ) (i : ℕ) : chainGain w i i = 1 := by simp [chainGain]

theorem chainGain_succ (w : ℕ → ℚ) {i j : ℕ} (h : i ≤ j) :
    chainGain w i (j + 1) = chainGain w i j * (w j * decay) :=
  Finset.prod_Ico_succ_top h _

section Chain
variable {g : CGraph} {n : ℕ} {p : ℕ → Pod} {w : ℕ → ℚ} (h : IsChain g n p w) {i j : ℕ} {v : Pod} {x : ℚ}
include h

theorem IsChain.unitWeights : UnitWeights g := by
  intro u v data hdata
  obtain ⟨k, hk, -, -, hw⟩ := (h.edges u v data.weight).mp ⟨data, hdata, rfl⟩
  obtain ⟨hlow, hhigh⟩ := h.weights k hk
  rw [← hw]
  exact ⟨by linarith, hhigh⟩

/-- The one way on. -/
theorem IsChain.mem_gains {o : Pod × ℚ} (hj : j ≤ n) : o ∈ gains g (p j) ↔ j < n ∧
    o = (p (j + 1), w j * decay) := by
  rw [EdgeCausal.mem_gains]
  constructor
  · rintro ⟨data, hdata, ho⟩
    obtain ⟨k, hk, hpk, hdst, hw⟩ := (h.edges _ _ _).mp ⟨data, hdata, rfl⟩
    obtain rfl := h.inj k hk.le j hj hpk
    exact ⟨hk, Prod.ext hdst.symm (by rw [ho, hw])⟩
  · rintro ⟨hlt, rfl⟩
    obtain ⟨data, hdata, hw⟩ := (h.edges (p j) (p (j + 1)) (w j)).mpr ⟨j, hlt, rfl, rfl, rfl⟩
    exact ⟨data, hdata, by rw [hw]⟩

/-- The walks along the chain. -/
theorem IsChain.gainWalk_iff (hi : i ≤ n) :
    GainWalk (gains g) (p i) v x ↔ ∃ j, i ≤ j ∧ j ≤ n ∧ p j = v ∧ chainGain w i j = x := by
  constructor
  · intro hwalk
    induction hwalk with
    | start => exact ⟨i, le_rfl, hi, rfl, chainGain_self w i⟩
    | step _ ho ih =>
        obtain ⟨j, hij, hj, rfl, rfl⟩ := ih
        obtain ⟨hlt, rfl⟩ := (h.mem_gains hj).mp ho
        exact ⟨j + 1, by omega, hlt, rfl, chainGain_succ w hij⟩
  · rintro ⟨j, hij, hj, rfl, rfl⟩
    induction j, hij using Nat.le_induction with
    | base =>
        rw [chainGain_self]
        exact GainWalk.start
    | succ j hij ih =>
        rw [chainGain_succ w hij]
        exact GainWalk.step (ih (by omega)) ((h.mem_gains (by omega)).mpr ⟨hj, rfl⟩)

theorem IsChain.reaches_iff (hi : i ≤ n) :
    x ∈ reaches g (p i) v ↔ ∃ j, i < j ∧ j ≤ n ∧ p j = v ∧ chainGain w i j = x := by
  constructor
  · rintro ⟨u, y, o, hu, ho, rfl, rfl⟩
    obtain ⟨j, hij, hj, rfl, rfl⟩ := (h.gainWalk_iff hi).mp hu
    obtain ⟨hlt, rfl⟩ := (h.mem_gains hj).mp ho
    exact ⟨j + 1, by omega, hlt, rfl, chainGain_succ w hij⟩
  · rintro ⟨j, hij, hj, rfl, rfl⟩
    obtain ⟨j, rfl⟩ : ∃ k, j = k + 1 := ⟨j - 1, by omega⟩
    refine ⟨p j, chainGain w i j, (p (j + 1), w j * decay), ?_, ?_, rfl, (chainGain_succ w (by omega)).symm⟩
    · exact (h.gainWalk_iff hi).mpr ⟨j, by omega, by omega, rfl, rfl⟩
    · exact (h.mem_gains (by omega)).mpr ⟨by omega, rfl⟩

/-- **The impact along a chain.** -/
theorem get?_forwardImpact_chain (hi : i ≤ n) : (forwardImpact g (p i)).get? v = some x ↔
    ∃ j, i < j ∧ j ≤ n ∧ p j = v ∧ chainGain w i j = x ∧ cut ≤ x := by
  rw [get?_forwardImpact_iff h.unitWeights]
  constructor
  · rintro ⟨⟨hreach, -⟩, hcut⟩
    obtain ⟨j, hij, hj, hv, hx⟩ := (h.reaches_iff hi).mp hreach
    exact ⟨j, hij, hj, hv, hx, hcut⟩
  · rintro ⟨j, hij, hj, hv, hx, hcut⟩
    refine ⟨⟨(h.reaches_iff hi).mpr ⟨j, hij, hj, hv, hx⟩, ?_⟩, hcut⟩
    -- only one walk leads to the pod
    intro y hy
    obtain ⟨k, hik, hk, hv', rfl⟩ := (h.reaches_iff hi).mp hy
    obtain rfl := h.inj k hk j hj (hv'.trans hv.symm)
    exact hx.le

theorem IsChain.inDegree_zero : g.inDegree (p 0) = 0 := by
  by_contra hne
  obtain ⟨u, data, hdata⟩ := DiGraph.inDegree_pos_iff.mp (Nat.pos_of_ne_zero hne)
  obtain ⟨k, hk, -, hdst, -⟩ := (h.edges _ _ _).mp ⟨data, hdata, rfl⟩
  exact absurd (h.inj (k + 1) hk 0 (Nat.zero_le n) hdst) (Nat.succ_ne_zero k)

theorem IsChain.inDegree_pos (hi : 0 < i) (hin : i ≤ n) : 0 < g.inDegree (p i) := by
  obtain ⟨k, rfl⟩ : ∃ k, i = k + 1 := ⟨i - 1, by omega⟩
  obtain ⟨data, hdata, -⟩ := (h.edges (p k) (p (k + 1)) (w k)).mpr ⟨k, hin, rfl, rfl, rfl⟩
  exact DiGraph.inDegree_pos_iff.mpr ⟨p k, data, hdata⟩

/-! ### Scores -/

/-- The reach that a score sums up. -/
theorem reach_chain (seeds : List Pod) (hi : i ≤ n) :
    (((forwardImpact g (p i)).entries.filter (·.1 ∈ seeds)).map Prod.snd).sum = chainReach n p w seeds i := by
  have hmem : ∀ kv, kv ∈ (forwardImpact g (p i)).entries.filter (·.1 ∈ seeds) ↔
      kv ∈ (explained n p w seeds i).toList.map fun j => (p j, chainGain w i j) := by
    rintro ⟨v, x⟩
    rw [List.mem_filter, List.mem_map, decide_eq_true_iff, ← Dict.get?_eq_some_iff,
      get?_forwardImpact_chain h hi]
    simp only [explained, Finset.mem_toList, Finset.mem_filter, Finset.mem_Ioc, Prod.mk.injEq]
    constructor
    · rintro ⟨⟨j, hij, hj, rfl, rfl, hcut⟩, hseed⟩
      exact ⟨j, ⟨⟨hij, hj⟩, hseed, hcut⟩, rfl, rfl⟩
    · rintro ⟨j, ⟨⟨hij, hj⟩, hseed, hcut⟩, rfl, rfl⟩
      exact ⟨⟨j, hij, hj, rfl, rfl, hcut⟩, hseed⟩
  have hnodup : ((forwardImpact g (p i)).entries.filter (·.1 ∈ seeds)).Nodup :=
    (List.Nodup.of_map Prod.fst (forwardImpact g (p i)).keys_nodup).filter _
  have hnodup' : ((explained n p w seeds i).toList.map fun j => (p j, chainGain w i j)).Nodup := by
    refine List.Nodup.map_on ?_ (Finset.nodup_toList _)
    intro j hj k hk heq
    simp only [explained, Finset.mem_toList, Finset.mem_filter, Finset.mem_Ioc] at hj hk
    exact h.inj j hj.1.2 k hk.1.2 (congrArg Prod.fst heq)
  have hperm := (List.perm_ext_iff_of_nodup hnodup hnodup').mpr hmem
  rw [(hperm.map Prod.snd).sum_eq, List.map_map]
  exact Finset.sum_map_toList _ _

/-- The head is not halved, and explains itself if it is a symptom. -/
theorem explain_head (seeds : List Pod) :
    explain g seeds (p 0) = chainReach n p w seeds 0 + if p 0 ∈ seeds then 1 else 0 := by
  unfold explain
  rw [reach_chain h seeds (Nat.zero_le n), h.inDegree_zero]
  by_cases hs : p 0 ∈ seeds <;> simp [hs]

/-- Every other pod is halved. -/
theorem explain_tail (seeds : List Pod) (hi : 0 < i) (hin : i ≤ n) :
    explain g seeds (p i) = chainReach n p w seeds i / 2 := by
  have hpos := h.inDegree_pos hi hin
  unfold explain
  rw [reach_chain h seeds hin]
  simp [hpos, hpos.ne', upstreamPenalty, div_eq_mul_inv]

/-- A pod retains no more than the decay leaves. -/
theorem IsChain.gain_mem (i : ℕ) (hj : j ≤ n) : 0 ≤ chainGain w i j ∧ chainGain w i j ≤ decay ^ (j - i) := by
  have hfactor : ∀ k ∈ Finset.Ico i j, 0 ≤ w k * decay ∧ w k * decay ≤ decay := by
    intro k hk
    obtain ⟨hlow, hhigh⟩ := h.weights k (by have := Finset.mem_Ico.mp hk; omega)
    have hdecay : (0 : ℚ) ≤ decay := by norm_num [decay]
    exact ⟨mul_nonneg (by linarith) hdecay, mul_le_of_le_one_left hdecay hhigh⟩
  refine ⟨Finset.prod_nonneg fun k hk => (hfactor k hk).1, ?_⟩
  calc chainGain w i j ≤ ∏ _k ∈ Finset.Ico i j, decay :=
        Finset.prod_le_prod (fun k hk => (hfactor k hk).1) fun k hk => (hfactor k hk).2
    _ = decay ^ (j - i) := by rw [Finset.prod_const, Nat.card_Ico]

theorem chainReach_nonneg (seeds : List Pod) (i : ℕ) : 0 ≤ chainReach n p w seeds i := by
  refine Finset.sum_nonneg ?_
  intro j hj
  obtain ⟨hj, -⟩ := Finset.mem_filter.mp hj
  rw [Finset.mem_Ioc] at hj
  exact (h.gain_mem i hj.2).1

/-- No more than five pods are explained, each by a further decay. -/
theorem chainReach_lt_two (seeds : List Pod) (i : ℕ) : chainReach n p w seeds i < 2 := by
  have hdecay : (0 : ℚ) ≤ decay ∧ decay ≤ 1 := by norm_num [decay]
  have hle : ∀ j ∈ explained n p w seeds i, chainGain w i j ≤ decay ^ (j - i) ∧ j ∈ Finset.Ioc i (i + 5) := by
    intro j hj
    obtain ⟨hj, -, hcut⟩ := Finset.mem_filter.mp hj
    rw [Finset.mem_Ioc] at hj ⊢
    have hgain := (h.gain_mem i hj.2).2
    refine ⟨hgain, hj.1, ?_⟩
    by_contra hfar
    have hsix : decay ^ (j - i) ≤ decay ^ 6 := pow_le_pow_of_le_one hdecay.1 hdecay.2 (by omega)
    have := hcut.trans (hgain.trans hsix)
    norm_num [cut, decay] at this
  have hfive : Finset.Ioc i (i + 5) = {i + 1, i + 2, i + 3, i + 4, i + 5} := by
    ext j
    simp only [Finset.mem_Ioc, Finset.mem_insert, Finset.mem_singleton]
    omega
  calc chainReach n p w seeds i ≤ ∑ j ∈ explained n p w seeds i, decay ^ (j - i) :=
        Finset.sum_le_sum fun j hj => (hle j hj).1
    _ ≤ ∑ j ∈ Finset.Ioc i (i + 5), decay ^ (j - i) := by
        refine Finset.sum_le_sum_of_subset_of_nonneg (fun j hj => (hle j hj).2) ?_
        intro j _ _
        exact pow_nonneg hdecay.1 _
    _ < 2 := by
        rw [hfive]
        norm_num [Finset.sum_insert, decay]

/-! ### The head -/

omit h in
/-- Symptoms on the graph are the seeds themselves. -/
theorem seedSet_of_mem {seeds : List Pod} (hne : seeds ≠ []) (hsub : ∀ s ∈ seeds, s ∈ g.nodes) :
    seedSet g seeds = seeds := by
  have hall : seeds.filter (· ∈ g.nodes) = seeds := by
    rw [List.filter_eq_self]
    intro s hs
    simpa using hsub s hs
  unfold seedSet
  dsimp only
  rw [hall, if_neg hne]

theorem IsChain.numberOfEdges_ne (hn : 0 < n) : g.numberOfEdges ≠ 0 := by
  obtain ⟨data, hdata, -⟩ := (h.edges (p 0) (p 1) (w 0)).mpr ⟨0, hn, rfl, rfl, rfl⟩
  exact (List.length_pos_of_mem (Dict.get?_eq_some_iff.mp hdata)).ne'

/-- The head against one of the others. -/
theorem outranks_head_iff {seeds : List Pod} {onsetS : Dict Pod ℚ} (hi : 0 < i) (hin : i ≤ n) :
    Outranks g seeds onsetS (p 0) (p i) ↔
      chainReach n p w seeds i / 2 < chainReach n p w seeds 0 + (if p 0 ∈ seeds then 1 else 0) ∨
      chainReach n p w seeds i / 2 = chainReach n p w seeds 0 + (if p 0 ∈ seeds then 1 else 0) ∧
        (onsetRank onsetS (p 0) < onsetRank onsetS (p i) ∨
          onsetRank onsetS (p 0) = onsetRank onsetS (p i) ∧ [p 0, p i].Sublist g.nodes) := by
  unfold Outranks
  rw [explain_head h, explain_tail h seeds hi hin]

end Chain

/-! ## The result -/

/-- **The head of a chain is the root cause if it is a symptom, or explains enough of them.** On any chain of
    admissible weights, with any symptoms on it and any onsets, the head ranks first if it is a symptom. If it
    is none, it ranks first exactly when it explains some of the symptoms and every other pod explains less than
    twice as much as it does, or just twice as much with a later onset or, at the same onset, a later place in
    the graph. -/
theorem chain_root (g : CGraph) (n : ℕ) (p : ℕ → Pod) (w : ℕ → ℚ) (h : IsChain g n p w) (hn : 0 < n)
    (seeds : List Pod) (hne : seeds ≠ []) (hsub : ∀ s ∈ seeds, s ∈ g.nodes) (onsetS : Dict Pod ℚ) (top : ℕ)
    (htop : 0 < top) :
    (p 0 ∈ seeds → (rankRootCauses g seeds onsetS top).head?.map RankEntry.pod = some (p 0)) ∧
    (p 0 ∉ seeds → ((rankRootCauses g seeds onsetS top).head?.map RankEntry.pod = some (p 0) ↔
      0 < chainReach n p w seeds 0 ∧ ∀ i, 0 < i → i ≤ n →
        chainReach n p w seeds i / 2 < chainReach n p w seeds 0 ∨
        chainReach n p w seeds i / 2 = chainReach n p w seeds 0 ∧
          (onsetRank onsetS (p 0) < onsetRank onsetS (p i) ∨
            onsetRank onsetS (p 0) = onsetRank onsetS (p i) ∧ [p 0, p i].Sublist g.nodes))) := by
  have hfirst : (rankRootCauses g seeds onsetS top).head?.map RankEntry.pod = some (p 0) ↔ _ :=
    ranked_first_iff (h.numberOfEdges_ne hn) htop
  have hhead : p 0 ∈ g.nodes := (h.nodes (p 0)).mpr ⟨0, Nat.zero_le n, rfl⟩
  -- the other pods are the ones further down
  have hothers : ∀ {P : Pod → Prop}, (∀ u ∈ g.nodes, u ≠ p 0 → P u) ↔ ∀ i, 0 < i → i ≤ n → P (p i) := by
    intro P
    constructor
    · intro hall i hi hin
      refine hall (p i) ((h.nodes (p i)).mpr ⟨i, hin, rfl⟩) ?_
      intro heq
      exact hi.ne' (h.inj i hin 0 (Nat.zero_le n) heq)
    · intro hall u hu hu0
      obtain ⟨i, hin, rfl⟩ := (h.nodes u).mp hu
      have hi : i ≠ 0 := by
        rintro rfl
        exact hu0 rfl
      exact hall i (Nat.pos_of_ne_zero hi) hin
  rw [seedSet_of_mem hne hsub, explain_head h, hothers] at hfirst
  constructor
  · intro hmem
    have hnonneg := chainReach_nonneg h seeds 0
    rw [hfirst, if_pos hmem]
    refine ⟨hhead, by linarith, ?_⟩
    intro i hi hin
    have hlt := chainReach_lt_two h seeds i
    rw [outranks_head_iff h hi hin, if_pos hmem]
    exact Or.inl (by linarith)
  · intro hmem
    rw [hfirst, if_neg hmem, add_zero]
    simp only [hhead, true_and]
    refine and_congr_right fun _ => forall_congr' fun i => forall_congr' fun hi => forall_congr' fun hin => ?_
    rw [outranks_head_iff h hi hin, if_neg hmem, add_zero]

/-- An edge list that joins each pod to the next, in any order, builds a chain. -/
theorem isChain_buildGraph {n : ℕ} {p : ℕ → Pod} {e : ℕ → Edge} {edges : List Edge} (hn : 0 < n)
    (hinj : ∀ i ≤ n, ∀ j ≤ n, p i = p j → i = j)
    (hends : ∀ k < n, (e k).src = p k ∧ (e k).dst = p (k + 1))
    (hweights : ∀ k < n, 6 / 10 ≤ |(e k).r| ∧ |(e k).r| ≤ 1) (hedges : ∀ x, x ∈ edges ↔ ∃ k < n, e k = x) :
    IsChain (buildGraph edges) n p (fun k => |(e k).r|) where
  inj := hinj
  nodes := by
    intro v
    rw [mem_nodes_buildGraph]
    constructor
    · rintro ⟨x, hx, hv⟩
      obtain ⟨k, hk, rfl⟩ := (hedges x).mp hx
      rcases hv with hv | hv
      · exact ⟨k, hk.le, (hends k hk).1.symm.trans hv⟩
      · exact ⟨k + 1, hk, (hends k hk).2.symm.trans hv⟩
    · rintro ⟨i, hi, rfl⟩
      rcases Nat.eq_zero_or_pos i with rfl | hpos
      · exact ⟨e 0, (hedges _).mpr ⟨0, hn, rfl⟩, Or.inl (hends 0 hn).1⟩
      · obtain ⟨k, rfl⟩ : ∃ k, i = k + 1 := ⟨i - 1, by omega⟩
        exact ⟨e k, (hedges _).mpr ⟨k, hi, rfl⟩, Or.inr (hends k hi).2⟩
  edges := by
    intro u v x
    constructor
    · rintro ⟨data, hdata, rfl⟩
      obtain ⟨x, hx, hsrc, hdst, hweight⟩ := buildGraph_weight hdata
      obtain ⟨k, hk, rfl⟩ := (hedges x).mp hx
      exact ⟨k, hk, (hends k hk).1.symm.trans hsrc, (hends k hk).2.symm.trans hdst, hweight.symm⟩
    · rintro ⟨k, hk, rfl, rfl, rfl⟩
      obtain ⟨data, hdata⟩ := buildGraph_joins.mpr ⟨e k, (hedges _).mpr ⟨k, hk, rfl⟩, (hends k hk).1,
        (hends k hk).2⟩
      obtain ⟨x, hx, hsrc, -, hweight⟩ := buildGraph_weight hdata
      obtain ⟨k', hk', rfl⟩ := (hedges x).mp hx
      obtain rfl := hinj k' hk'.le k hk.le ((hends k' hk').1.symm.trans hsrc)
      exact ⟨data, hdata, hweight⟩
  weights := hweights

/-! ### Three pods -/

def relayPods (i : ℕ) : Pod := ["cooling-monitor", "timescaledb", "dcim-bridge"].getD i ""

/-- The edges of a chain of three pods with one correlation. -/
def relayEdge (r : ℚ) (k : ℕ) : Edge := ⟨relayPods k, relayPods (k + 1), r, 15, []⟩

theorem relay_isChain {r : ℚ} (hr : 6 / 10 ≤ |r| ∧ |r| ≤ 1) :
    IsChain (buildGraph [relayEdge r 0, relayEdge r 1]) 2 relayPods (fun _ => |r|) := by
  refine isChain_buildGraph (e := relayEdge r) (by decide) ?_ (fun _ _ => ⟨rfl, rfl⟩) (fun _ _ => hr) ?_
  · decide +kernel
  · intro x
    constructor
    · intro hx
      rcases List.mem_cons.mp hx with rfl | hx
      · exact ⟨0, by decide, rfl⟩
      · exact ⟨1, by decide, (List.mem_singleton.mp hx).symm⟩
    · rintro ⟨k, hk, rfl⟩
      interval_cases k <;> simp

/-- Onsets as they spread. -/
def relayOnsets : Dict Pod ℚ := Dict.ofList [("cooling-monitor", 30), ("timescaledb", 45), ("dcim-bridge", 60)]

theorem chain_root_relay :
    (rankRootCauses (buildGraph [relayEdge (8 / 10) 0, relayEdge (8 / 10) 1]) ["dcim-bridge"] relayOnsets
      topCauses).head?.map RankEntry.pod = some "cooling-monitor" := by
  refine ((chain_root _ 2 relayPods _ (relay_isChain (by norm_num)) (by decide) ["dcim-bridge"] (by decide)
    (by decide +kernel) relayOnsets topCauses (by decide)).2 (by decide)).mpr ⟨by decide +kernel, ?_⟩
  intro i hi hin
  refine Or.inl ?_
  interval_cases i <;> decide +kernel

/-- With the weakest edges the pod in the middle is ranked before the head. -/
theorem relay_middle_first :
    IsChain (buildGraph [relayEdge (6 / 10) 0, relayEdge (6 / 10) 1]) 2 relayPods (fun _ => 6 / 10) ∧
    (∀ i ≤ 2, ∀ j ≤ 2, i ≤ j → onsetRank relayOnsets (relayPods i) ≤ onsetRank relayOnsets (relayPods j)) ∧
    rankRootCauses (buildGraph [relayEdge (6 / 10) 0,
      relayEdge (6 / 10) 1]) ["dcim-bridge"] relayOnsets topCauses
      = [⟨"timescaledb", 543 / 1000, some 45⟩, ⟨"cooling-monitor", 457 / 1000, some 30⟩] := by
  refine ⟨?_, ?_, by decide +kernel⟩
  · have h := relay_isChain (r := 6 / 10) (by norm_num)
    rwa [show |(6 / 10 : ℚ)| = 6 / 10 by norm_num] at h
  · intro i hi j hj hij
    interval_cases i <;> interval_cases j <;> decide +kernel

end EdgeCausal
