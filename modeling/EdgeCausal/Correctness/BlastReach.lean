import EdgeCausal.Correctness.BestReach
import EdgeCausal.Correctness.BlastWalk

/-!
# `Correctness.BlastReach` — when the blast radius is the explanatory reach

`forwardImpact` keeps the best walk to each pod, the blast radius the first one its breadth-first search finds.
They agree, in whatever order the edges are listed, when first walks are the best ones: no walk to a pod is
worth more than a first walk to it, first walks to one pod take the same time, and two pods equally far away
have different impacts (`FirstIsBest`). Conversely, if they agree then first walks are the best ones as far as
the three decimals served can tell (`blast_is_forward`).
-/

namespace EdgeCausal

open Lib

variable {g g' : CGraph} {root v : Pod} {edges edges' : List Edge} {walk : List Leg}

/-! ## Walks worth keeping -/

theorem mem_gains_iff_legs {n : Pod} {o : Pod × ℚ} :
    o ∈ gains g n ↔ ∃ leg ∈ legs g n, o = (leg.1, leg.2.1 * decay) := by
  unfold gains legs
  simp only [List.mem_map]
  constructor
  · rintro ⟨out, hout, rfl⟩
    exact ⟨legOf out, ⟨out, hout, rfl⟩, rfl⟩
  · rintro ⟨leg, ⟨out, hout, rfl⟩, rfl⟩
    exact ⟨out, hout, rfl⟩

/-- A surviving walk is a walk of gains, of its own impact. -/
theorem gainWalk_of_survivor (h : Survivor (legs g) Lives root walk) :
    GainWalk (gains g) root (walkEnd root walk) (walkImpact walk) := by
  induction h with
  | start => exact GainWalk.start
  | @step walk o _ ho _ ih =>
      rw [walkEnd_concat, walkImpact_concat, mul_assoc]
      exact GainWalk.step ih (mem_gains_iff_legs.mpr ⟨o, ho, rfl⟩)

theorem reach_of_survivor (h : Survivor (legs g) Lives root walk) (hne : walk ≠ []) :
    walkImpact walk ∈ reaches g root (walkEnd root walk) := by
  rcases List.eq_nil_or_concat walk with rfl | ⟨pre, o, rfl⟩
  · exact absurd rfl hne
  · rw [List.concat_eq_append] at h ⊢
    obtain ⟨hpre, ho, -⟩ := h.concat_inv
    rw [walkEnd_concat, walkImpact_concat, mul_assoc]
    exact ⟨_, _, (o.1, o.2.1 * decay), gainWalk_of_survivor hpre, mem_gains_iff_legs.mpr ⟨o, ho, rfl⟩, rfl, rfl⟩

/-- A surviving walk goes on by any gain that does not fall below the cut. -/
theorem survivor_concat (h : Survivor (legs g) Lives root walk) {o : Pod × ℚ}
    (ho : o ∈ gains g (walkEnd root walk)) (hcut : cut ≤ walkImpact walk * o.2) :
    ∃ leg, Survivor (legs g) Lives root (walk ++ [leg]) ∧
      walkEnd root (walk ++ [leg]) = o.1 ∧ walkImpact (walk ++ [leg]) = walkImpact walk * o.2 := by
  obtain ⟨leg, hleg, rfl⟩ := mem_gains_iff_legs.mp ho
  have himpact : walkImpact (walk ++ [leg]) = walkImpact walk * (leg.2.1 * decay) := by
    rw [walkImpact_concat, mul_assoc]
  exact ⟨leg, Survivor.step h hleg (hcut.trans_eq himpact.symm), walkEnd_concat root walk leg, himpact⟩

/-- A walk of gains not below the cut survives all along. -/
theorem survivor_of_gainWalk (hg : UnitWeights g) {w : ℚ} (h : GainWalk (gains g) root v w) (hcut : cut ≤ w) :
    ∃ walk, Survivor (legs g) Lives root walk ∧ walkEnd root walk = v ∧ walkImpact walk = w := by
  induction h with
  | start => exact ⟨[], Survivor.start, rfl, rfl⟩
  | @step v w o hwalk ho ih =>
      have hw : 0 ≤ w := hwalk.nonneg fun n o ho => (hg.shares n o ho).1
      obtain ⟨walk, hsurvives, rfl, rfl⟩ := ih (hcut.trans (mul_le_of_le_one_right hw (hg.shares _ o ho).2))
      obtain ⟨leg, hmore⟩ := survivor_concat hsurvives ho hcut
      exact ⟨walk ++ [leg], hmore⟩

theorem survivor_of_reach (hg : UnitWeights g) {w : ℚ} (h : w ∈ reaches g root v) (hcut : cut ≤ w) :
    ∃ walk, Survivor (legs g) Lives root walk ∧ walk ≠ [] ∧ walkEnd root walk = v ∧ walkImpact walk = w := by
  obtain ⟨u, y, o, hu, ho, rfl, rfl⟩ := h
  have hy : 0 ≤ y := hu.nonneg fun n o ho => (hg.shares n o ho).1
  obtain ⟨walk, hsurvives, rfl, rfl⟩ :=
    survivor_of_gainWalk hg hu (hcut.trans (mul_le_of_le_one_right hy (hg.shares _ o ho).2))
  obtain ⟨leg, hmore, hend, himpact⟩ := survivor_concat hsurvives ho hcut
  exact ⟨walk ++ [leg], hmore, by simp, hend, himpact⟩

/-- The impact of a pod is that of the best surviving walk to it. -/
theorem get?_forwardImpact_iff_walk (hg : UnitWeights g) {x : ℚ} : (forwardImpact g root).get? v = some x ↔
    (∃ walk, Survivor (legs g) Lives root walk ∧ walk ≠ [] ∧ walkEnd root walk = v ∧ walkImpact walk = x) ∧
      ∀ walk, Survivor (legs g) Lives root walk → walk ≠ [] → walkEnd root walk = v → walkImpact walk ≤ x := by
  constructor
  · intro hx
    obtain ⟨⟨hreach, hmax⟩, hcut⟩ := (get?_forwardImpact_iff hg).mp hx
    refine ⟨survivor_of_reach hg hreach hcut, ?_⟩
    rintro walk hsurvives hne rfl
    exact hmax (reach_of_survivor hsurvives hne)
  · rintro ⟨⟨walk, hsurvives, hne, rfl, rfl⟩, hmax⟩
    have hcut : cut ≤ walkImpact walk := hsurvives.alive_end (by norm_num [Lives, cut])
    refine (get?_forwardImpact_iff hg).mpr ⟨⟨reach_of_survivor hsurvives hne, ?_⟩, hcut⟩
    intro w hw
    -- a walk below the cut is no better than one that is not
    rcases lt_or_ge w cut with hlt | hge
    · exact hlt.le.trans hcut
    · obtain ⟨walk', hsurvives', hne', hend', rfl⟩ := survivor_of_reach hg hw hge
      exact hmax walk' hsurvives' hne' hend'

/-- A pod has impact exactly when a surviving walk of at least one leg ends at it. -/
theorem exists_impact_iff (hg : UnitWeights g) : (∃ x, (forwardImpact g root).get? v = some x) ↔
    ∃ walk, Survivor (legs g) Lives root walk ∧ walk ≠ [] ∧ walkEnd root walk = v := by
  constructor
  · rintro ⟨x, hx⟩
    obtain ⟨⟨walk, hsurvives, hne, hend, -⟩, -⟩ := (get?_forwardImpact_iff_walk hg).mp hx
    exact ⟨walk, hsurvives, hne, hend⟩
  · rintro ⟨walk, hsurvives, hne, rfl⟩
    rw [← Option.ne_none_iff_exists']
    intro hnone
    have hlt := (get?_forwardImpact_eq_none_iff hg).mp hnone _ (reach_of_survivor hsurvives hne)
    exact absurd (hsurvives.alive_end (by norm_num [Lives, cut])) (not_le.mpr hlt)

/-! ## Edges listed in another order -/

/-- The leg an edge of the list becomes. -/
def edgeLeg (e : Edge) : Leg := (e.dst, |e.r|, e.lagS)

/-- Edges between the same pods agree in strength and lag. -/
def Consistent (edges : List Edge) : Prop :=
  ∀ e ∈ edges, ∀ e' ∈ edges, e.src = e'.src → e.dst = e'.dst → edgeLeg e = edgeLeg e'

instance (edges : List Edge) : Decidable (Consistent edges) :=
  inferInstanceAs (Decidable (∀ e ∈ edges, ∀ e' ∈ edges, e.src = e'.src → e.dst = e'.dst →
    edgeLeg e = edgeLeg e'))

theorem Consistent.of_perm (h : Consistent edges) (hperm : edges'.Perm edges) : Consistent edges' :=
  fun e he e' he' => h e (hperm.subset he) e' (hperm.subset he')

/-- The legs of the graph are the edges of the list. -/
theorem mem_legs_buildGraph (h : Consistent edges) {n : Pod} {o : Leg} :
    o ∈ legs (buildGraph edges) n ↔ ∃ e ∈ edges, e.src = n ∧ edgeLeg e = o := by
  unfold legs
  rw [List.mem_map]
  constructor
  · rintro ⟨⟨v, data⟩, hout, rfl⟩
    obtain ⟨e, he, hsrc, rfl, rfl⟩ := get?_buildGraph_iff.mp (DiGraph.mem_outEdges.mp hout)
    exact ⟨e, he.mem, hsrc, rfl⟩
  · rintro ⟨e, he, rfl, rfl⟩
    obtain ⟨e', he', hsrc, hdst⟩ := exists_survives he
    refine ⟨(e.dst, ⟨|e'.r|, e'.lagS, e'.evidence⟩), ?_, ?_⟩
    · exact DiGraph.mem_outEdges.mpr (get?_buildGraph_iff.mpr ⟨e', he', hsrc, hdst, rfl⟩)
    · have hleg := h e' he'.mem e he hsrc hdst
      rw [← hleg]
      simp only [legOf, edgeLeg, hdst]

theorem legs_perm (h : Consistent edges) (hperm : edges'.Perm edges) (n : Pod) (o : Leg) :
    o ∈ legs (buildGraph edges') n ↔ o ∈ legs (buildGraph edges) n := by
  rw [mem_legs_buildGraph h, mem_legs_buildGraph (h.of_perm hperm)]
  simp only [hperm.mem_iff]

theorem mem_nodes_perm (hperm : edges'.Perm edges) : v ∈ (buildGraph edges').nodes ↔
    v ∈ (buildGraph edges).nodes := by
  rw [mem_nodes_buildGraph, mem_nodes_buildGraph]
  simp only [hperm.mem_iff]

theorem buildGraph_unitWeights (h : ∀ e ∈ edges, |e.r| ≤ 1) : UnitWeights (buildGraph edges) := by
  intro u v data hdata
  obtain ⟨e, he, -, -, hweight⟩ := buildGraph_weight hdata
  rw [hweight]
  exact ⟨abs_nonneg e.r, h e he⟩

/-- The edges of a surviving walk. -/
theorem exists_walk_edges (h : Consistent edges) (hwalk : Survivor (legs (buildGraph edges)) Lives root walk) :
    ∃ es : List Edge, es ⊆ edges ∧ es.map Edge.src ++ [walkEnd root walk] = root :: walk.map Prod.fst ∧
      ∀ pre o, pre ++ [o] <+: walk →
        ∃ before e after, es = before ++ e :: after ∧ e.src = walkEnd root pre ∧ edgeLeg e = o := by
  induction hwalk with
  | start => exact ⟨[], by simp, by simp, by simp⟩
  | @step walk o _ ho _ ih =>
      obtain ⟨es, hsub, hsrcs, hes⟩ := ih
      obtain ⟨e, he, hsrc, hleg⟩ := (mem_legs_buildGraph h).mp ho
      refine ⟨es ++ [e], ?_, ?_, ?_⟩
      · intro e' he'
        rcases List.mem_append.mp he' with he' | he'
        · exact hsub he'
        · exact List.mem_singleton.mp he' ▸ he
      · rw [List.map_append, List.map_singleton, hsrc, hsrcs, walkEnd_concat, List.map_append]
        rfl
      · intro pre o' hpre
        rcases List.prefix_concat_iff.mp hpre with heq | hpre
        · obtain ⟨rfl, hlast⟩ := List.append_inj' heq rfl
          obtain rfl := (List.cons.inj hlast).1
          exact ⟨es, e, [], rfl, hsrc, hleg⟩
        · obtain ⟨before, e', after, rfl, hsrc', hleg'⟩ := hes pre o' hpre
          exact ⟨before, e', after ++ [e], by simp, hsrc', hleg'⟩

/-- **Any simple walk can be listed first**: in some order of the edges the walk takes the first way on at
    each of its pods. -/
theorem exists_listed_first (h : Consistent edges) (hwalk : Survivor (legs (buildGraph edges)) Lives root walk)
    (hsimple : (root :: walk.map Prod.fst).Nodup) :
    ∃ edges', edges'.Perm edges ∧ ∀ pre o, pre ++ [o] <+: walk →
      ∃ rest, legs (buildGraph edges') (walkEnd root pre) = o :: rest := by
  obtain ⟨es, hsub, hsrcs, hes⟩ := exists_walk_edges h hwalk
  rw [← hsrcs] at hsimple
  have hsrc : (es.map Edge.src).Nodup := (List.nodup_append.mp hsimple).1
  have hnodup : es.Nodup := List.Nodup.of_map Edge.src hsrc
  obtain ⟨es', hes', hsublist⟩ := List.subperm_of_subset hnodup hsub
  obtain ⟨rest, hrest⟩ := hsublist.exists_perm_append
  have hperm : (es ++ rest).Perm edges := (hes'.symm.append_right rest).trans hrest.symm
  refine ⟨es ++ rest, hperm, ?_⟩
  intro pre o hpre
  obtain ⟨before, e, after, rfl, hesrc, rfl⟩ := hes pre o hpre
  -- the pairs of the walk stand first among the keys, and no earlier one leaves the same pod
  have hpairs : ((before ++ e :: after).map fun e => (e.src, e.dst)).Nodup := by
    apply List.Nodup.of_map Prod.fst
    rw [List.map_map]
    exact hsrc
  obtain ⟨more, hmore⟩ := prefix_keys_foldl_addEdge (buildGraph (before ++ e :: after)) rest
  rw [← buildGraph_append, keys_buildGraph hpairs, List.map_append, List.map_cons, List.append_assoc,
    List.cons_append] at hmore
  have hbefore : ∀ p ∈ before.map fun e => (e.src, e.dst), p.1 ≠ e.src := by
    intro p hp heq
    obtain ⟨e', he', rfl⟩ := List.mem_map.mp hp
    rw [List.map_append, List.map_cons, List.nodup_append] at hsrc
    exact hsrc.2.2 _ (List.mem_map_of_mem he') _ List.mem_cons_self heq
  obtain ⟨data, outs, hout⟩ := DiGraph.outEdges_first hmore.symm hbefore
  have hlegs : legs (buildGraph (before ++ e :: after ++ rest)) e.src =
      legOf (e.dst, data) :: outs.map legOf := by
    unfold legs
    rw [hout, List.map_cons]
  have hcons := h.of_perm hperm
  have hmem : legOf (e.dst, data) ∈ legs (buildGraph (before ++ e :: after ++ rest)) e.src :=
    hlegs ▸ List.mem_cons_self
  obtain ⟨e', he', hsrc', hleg'⟩ := (mem_legs_buildGraph hcons).mp hmem
  have heq : edgeLeg e' = edgeLeg e := hcons e' he' e (by simp) hsrc' (congrArg Prod.fst hleg')
  refine ⟨outs.map legOf, ?_⟩
  rw [← hesrc, hlegs, ← hleg', heq]

/-! ## First walks that are the best ones -/

/-- First walks are the best ones, as far as `f` can tell: no walk to a pod is worth more than a first walk to
    it, first walks to one pod take the same time, and pods as far away as each other differ in impact. -/
structure FirstIsBest (f : ℚ → ℚ) (g : CGraph) (root : Pod) : Prop where
  best : ∀ w w', FirstWalk (legs g) Lives root w → w ≠ [] → Survivor (legs g) Lives root w' →
    walkEnd root w' = walkEnd root w → f (walkImpact w') ≤ f (walkImpact w)
  eta : ∀ w w', FirstWalk (legs g) Lives root w → FirstWalk (legs g) Lives root w' →
    walkEnd root w' = walkEnd root w → walkEta w' = walkEta w
  apart : ∀ w w', FirstWalk (legs g) Lives root w → FirstWalk (legs g) Lives root w' → w'.length = w.length →
    walkEnd root w' ≠ walkEnd root w → roundAt 3 (walkImpact w') ≠ roundAt 3 (walkImpact w)

/-- Blast radius and explanatory reach are the same forward walk: the same pods, root aside, with the same
    impact up to rounding, and the same list however the edges are ordered. -/
structure SameWalk (edges : List Edge) (root : Pod) : Prop where
  listed : ∀ v, (∃ b ∈ blastRadius (buildGraph edges) root, b.pod = v) ↔
    v ≠ root ∧ ∃ x, (forwardImpact (buildGraph edges) root).get? v = some x
  impact : ∀ b ∈ blastRadius (buildGraph edges) root, ∀ x,
    (forwardImpact (buildGraph edges) root).get? b.pod = some x → b.impact = roundAt 3 x
  stable : ∀ edges', edges'.Perm edges →
    blastRadius (buildGraph edges') root = blastRadius (buildGraph edges) root

section Enough
variable (hbest : FirstIsBest id g root) (hg : UnitWeights g)
include hbest hg

/-- A leg that any walk to a pod survives, a first walk to it survives. -/
theorem FirstIsBest.dominates {w w' : List Leg} (hw : FirstWalk (legs g) Lives root w)
    (hw' : Survivor (legs g) Lives root w') (hend : walkEnd root w' = walkEnd root w) {o : Leg}
    (ho : o ∈ legs g (walkEnd root w)) (halive : Lives (w' ++ [o])) : Lives (w ++ [o]) := by
  have hle : walkImpact w' ≤ walkImpact w := by
    by_cases hne : w = []
    · rw [hne, walkImpact_nil]
      exact (gainWalk_of_survivor hw').le_one hg.shares
    · exact hbest.best w w' hw hne hw' hend
  have hweight : 0 ≤ o.2.1 * decay := (hg.shares _ _ (mem_gains_iff_legs.mpr ⟨o, ho, rfl⟩)).1
  have hmul := mul_le_mul_of_nonneg_right hle hweight
  rw [← mul_assoc, ← mul_assoc, ← walkImpact_concat, ← walkImpact_concat] at hmul
  exact halive.trans hmul

variable (hlegs : ∀ n o, o ∈ legs g' n ↔ o ∈ legs g n) (hroot : root ∈ g'.nodes)
include hlegs hroot

/-- Whatever the order of the edges, first walks are found, one to every pod. -/
theorem FirstIsBest.finds {w : List Leg} (hw : Survivor (legs g) Lives root w) :
    ∃ w' ∈ blastWalks g' root, walkEnd root w' = walkEnd root w ∧ FirstWalk (legs g) Lives root w' := by
  have hdom : ∀ u, FirstWalk (legs g') Lives root u → ∀ u', Survivor (legs g') Lives root u' →
      walkEnd root u' = walkEnd root u → ∀ o ∈ legs g' (walkEnd root u), Lives (u' ++ [o]) →
          Lives (u ++ [o]) := by
    intro u hu u' hu' hend o ho halive
    exact hbest.dominates hg ((FirstWalk.congr hlegs).mp hu) ((Survivor.congr hlegs).mp hu') hend
      ((hlegs _ o).mp ho) halive
  obtain ⟨w', hmem, hend, hfirst⟩ := (blastWalks_searched hroot).finds hdom ((Survivor.congr hlegs).mpr hw)
  exact ⟨w', hmem, hend, (FirstWalk.congr hlegs).mp hfirst⟩

theorem FirstIsBest.found {w : List Leg} (hw : w ∈ blastWalks g' root) : FirstWalk (legs g) Lives root w := by
  have hsearched := blastWalks_searched hroot
  obtain ⟨w', hw', hend, hfirst⟩ := hbest.finds hg hlegs hroot
    ((Survivor.congr hlegs).mp (hsearched.survivor hw))
  exact (hsearched.eq_of_end hw' hw hend) ▸ hfirst

/-- What is listed does not depend on which first walk was found. -/
theorem FirstIsBest.mem_iff {b : BlastEntry} : b ∈ blastRadius g' root ↔
    ∃ w, FirstWalk (legs g) Lives root w ∧ walkEnd root w ≠ root ∧ walkEntry root w = b := by
  rw [mem_blastRadius hroot]
  constructor
  · rintro ⟨w, hw, hne, rfl⟩
    refine ⟨w, hbest.found hg hlegs hroot hw, ?_, rfl⟩
    intro hend
    exact hne ((blastWalks_searched hroot).eq_of_end hw (blastWalks_searched hroot).nil_mem hend)
  · rintro ⟨w, hw, hne, rfl⟩
    obtain ⟨w', hw', hend, hfirst⟩ := hbest.finds hg hlegs hroot hw.shortest.survives
    have hnil : ∀ u : List Leg, walkEnd root u = walkEnd root w → u ≠ [] := by
      rintro u hu rfl
      exact hne hu.symm
    refine ⟨w', hw', hnil w' hend, ?_⟩
    have himpact : walkImpact w' = walkImpact w :=
      le_antisymm (hbest.best w w' hw (hnil w rfl) hfirst.shortest.survives hend)
        (hbest.best w' w hfirst (hnil w' hend) hw.shortest.survives hend.symm)
    have heta : walkEta w' = walkEta w := hbest.eta w w' hw hfirst hend
    unfold walkEntry
    rw [hend, himpact, heta]

/-- The legs of the first walks to an entry's pod. -/
noncomputable def depth (g : CGraph) (root : Pod) (b : BlastEntry) : ℕ :=
  sInf {n | ∃ w, FirstWalk (legs g) Lives root w ∧ walkEnd root w = b.pod ∧ w.length = n}

omit hbest hg hlegs hroot in
theorem depth_walkEntry {w : List Leg} (hw : FirstWalk (legs g) Lives root w) :
    depth g root (walkEntry root w) = w.length := by
  have hone : {n | ∃ u, FirstWalk (legs g) Lives root u ∧ walkEnd root u = (walkEntry root w).pod ∧
    u.length = n}
      = {w.length} := by
    ext n
    constructor
    · rintro ⟨u, hu, hend, rfl⟩
      have hle := hu.shortest.le w hw.shortest.survives hend.symm
      have hge := hw.shortest.le u hu.shortest.survives hend
      exact le_antisymm hle hge
    · rintro rfl
      exact ⟨w, hw, rfl, rfl⟩
  unfold depth
  rw [hone, csInf_singleton]

/-- The list stands by falling impact, and by distance where impacts are equal. -/
theorem FirstIsBest.pairwise : (blastRadius g' root).Pairwise fun b b' =>
    -b.impact < -b'.impact ∨ -b.impact = -b'.impact ∧ depth g root b ≤ depth g root b' := by
  have hsearched := blastWalks_searched hroot
  have hnodup : ((blastWalks g' root).tail.map (walkEntry root)).Nodup := by
    apply List.Nodup.of_map BlastEntry.pod
    rw [List.map_map]
    exact (List.nodup_cons.mp (blastWalks_nodup hroot)).2
  rw [blastRadius_eq hroot]
  refine sortOn_pairwise_both hnodup ?_
  rw [List.pairwise_map]
  have hsorted := Searched.sorted hsearched
  rw [List.append_nil] at hsorted
  refine List.Pairwise.imp_of_mem ?_ (hsorted.sublist (List.tail_sublist _))
  intro w w' hw hw' hle
  rw [depth_walkEntry (hbest.found hg hlegs hroot (List.mem_of_mem_tail hw)),
    depth_walkEntry (hbest.found hg hlegs hroot (List.mem_of_mem_tail hw'))]
  exact hle

end Enough

/-- Lists of two orders of the edges are equal. -/
theorem FirstIsBest.stable (hbest : FirstIsBest id g root) (hg : UnitWeights g)
    (hlegs : ∀ n o, o ∈ legs g' n ↔ o ∈ legs g n) (hroot : root ∈ g.nodes) (hroot' : root ∈ g'.nodes) :
    blastRadius g' root = blastRadius g root := by
  have hmem : ∀ b, b ∈ blastRadius g' root ↔ b ∈ blastRadius g root := by
    intro b
    rw [hbest.mem_iff hg hlegs hroot', hbest.mem_iff hg (fun _ _ => Iff.rfl) hroot]
  have hperm : (blastRadius g' root).Perm (blastRadius g root) := by
    apply (List.perm_ext_iff_of_nodup _ _).mpr hmem
    · exact (blastRadius_pods g' root).1.of_map BlastEntry.pod
    · exact (blastRadius_pods g root).1.of_map BlastEntry.pod
  refine List.Perm.eq_of_pairwise ?_ (hbest.pairwise hg hlegs hroot')
    (hbest.pairwise hg (fun _ _ => Iff.rfl) hroot) hperm
  -- entries in both orders are of one impact and one distance, so of one pod
  intro b b' hb hb' hle hge
  have himpact : b.impact = b'.impact := by
    rcases hle with hlt | ⟨heq, -⟩
    · rcases hge with hgt | ⟨heq, -⟩
      · exact absurd hgt (lt_asymm hlt)
      · exact absurd heq hlt.ne'
    · exact neg_inj.mp heq
  have hdepth : depth g root b = depth g root b' := by
    rcases hle with hlt | ⟨-, hle⟩
    · exact absurd hlt (by rw [himpact]; exact lt_irrefl _)
    · rcases hge with hlt | ⟨-, hge⟩
      · exact absurd hlt (by rw [himpact]; exact lt_irrefl _)
      · exact le_antisymm hle hge
  obtain ⟨w, hw, hend, rfl⟩ := (hbest.mem_iff hg hlegs hroot').mp hb
  obtain ⟨w', hw', hend', rfl⟩ := (hbest.mem_iff hg (fun _ _ => Iff.rfl) hroot).mp hb'
  rw [depth_walkEntry hw, depth_walkEntry hw'] at hdepth
  have hpod : walkEnd root w = walkEnd root w' := by
    by_contra hne
    exact hbest.apart w' w hw' hw hdepth hne himpact
  have heta : walkEta w = walkEta w' := hbest.eta w' w hw' hw hpod
  show (⟨_, _, _⟩ : BlastEntry) = ⟨_, _, _⟩
  rw [hpod, heta]
  exact congrArg (fun i => (⟨_, i, _⟩ : BlastEntry)) himpact

/-- **Enough**: where first walks are the best ones, both functions see the same walk. -/
theorem sameWalk_of_firstIsBest (hunit : ∀ e ∈ edges, |e.r| ≤ 1) (hcons : Consistent edges)
    (hroot : root ∈ (buildGraph edges).nodes) (hbest : FirstIsBest id (buildGraph edges) root) :
    SameWalk edges root := by
  have hg := buildGraph_unitWeights hunit
  have hmem : ∀ {b}, b ∈ blastRadius (buildGraph edges) root ↔ _ := hbest.mem_iff hg (fun _ _ => Iff.rfl) hroot
  have hnil : ∀ {w : List Leg}, walkEnd root w ≠ root → w ≠ [] := by
    rintro w hne rfl
    exact hne rfl
  refine ⟨?_, ?_, ?_⟩
  · intro v
    rw [exists_impact_iff hg]
    constructor
    · rintro ⟨b, hb, rfl⟩
      obtain ⟨w, hw, hne, rfl⟩ := hmem.mp hb
      exact ⟨hne, w, hw.shortest.survives, hnil hne, rfl⟩
    · rintro ⟨hne, w, hw, -, rfl⟩
      obtain ⟨w', -, hend, hfirst⟩ := hbest.finds hg (fun _ _ => Iff.rfl) hroot hw
      exact ⟨walkEntry root w', hmem.mpr ⟨w', hfirst, hend ▸ hne, rfl⟩, hend⟩
  · intro b hb x hx
    obtain ⟨w, hw, hne, rfl⟩ := hmem.mp hb
    obtain ⟨⟨w', hw', -, hend, rfl⟩, hmax⟩ := (get?_forwardImpact_iff_walk hg).mp hx
    have hle := hbest.best w w' hw (hnil hne) hw' hend
    have hge := hmax w hw.shortest.survives (hnil hne) rfl
    exact congrArg (roundAt 3) (le_antisymm hge hle)
  · intro edges' hperm
    exact hbest.stable hg (legs_perm hcons hperm) hroot ((mem_nodes_perm hperm).mpr hroot)

/-! ## Walks that are found -/

section Needed
variable (hcons : Consistent edges) (hroot : root ∈ (buildGraph edges).nodes)
include hcons hroot

/-- **Every first walk is found in some order of the edges**, before all others of its length. -/
theorem exists_found_first (hwalk : FirstWalk (legs (buildGraph edges)) Lives root walk) :
    ∃ edges', edges'.Perm edges ∧ ∃ before after, blastWalks (buildGraph edges') root =
      before ++ walk :: after ∧
      ∀ w ∈ before, w.length < walk.length := by
  obtain ⟨edges', hperm, hleft⟩ := exists_listed_first hcons hwalk.shortest.survives hwalk.simple
  have hsearched := blastWalks_searched ((mem_nodes_perm hperm).mpr hroot)
  exact ⟨edges', hperm, hsearched.leftmost ((FirstWalk.congr (legs_perm hcons hperm)).mpr hwalk) hleft⟩

variable (hsame : SameWalk edges root)
include hsame

/-- So each of them is listed. -/
theorem SameWalk.mem (hwalk : FirstWalk (legs (buildGraph edges)) Lives root walk) (hne : walk ≠ []) :
    walkEntry root walk ∈ blastRadius (buildGraph edges) root := by
  obtain ⟨edges', hperm, before, after, hsplit, -⟩ := exists_found_first hcons hroot hwalk
  rw [← hsame.stable edges' hperm]
  exact (mem_blastRadius ((mem_nodes_perm hperm).mpr hroot)).mpr ⟨walk, by rw [hsplit]; simp, hne, rfl⟩

/-- Of first walks of one length with the same rounded impact, each would be listed before the other. -/
theorem SameWalk.listed_before {w w' : List Leg} (hw : FirstWalk (legs (buildGraph edges)) Lives root w)
    (hw' : FirstWalk (legs (buildGraph edges)) Lives root w') (hlen : w'.length = w.length)
    (hend : walkEnd root w' ≠ walkEnd root w) (hround : roundAt 3 (walkImpact w') = roundAt 3 (walkImpact w)) :
    [walkEntry root w, walkEntry root w'].Sublist (blastRadius (buildGraph edges) root) := by
  have hne : w ≠ [] := by
    rintro rfl
    exact hend (congrArg (walkEnd root) (List.length_eq_zero_iff.mp hlen))
  have hne' : w' ≠ [] := by
    rintro rfl
    exact hne (List.length_eq_zero_iff.mp hlen.symm)
  obtain ⟨edges', hperm, before, after, hsplit, hbefore⟩ := exists_found_first hcons hroot hw
  have hroot' := (mem_nodes_perm hperm).mpr hroot
  have hmem := hsame.mem hcons hroot hw' hne'
  rw [← hsame.stable edges' hperm] at hmem ⊢
  -- the walk found to the other pod is no shorter, so it was not found before
  obtain ⟨u, hu, -, hentry⟩ := (mem_blastRadius hroot').mp hmem
  have huend : walkEnd root u = walkEnd root w' := congrArg BlastEntry.pod hentry
  have hsurvives := (Survivor.congr (legs_perm hcons hperm)).mp ((blastWalks_searched hroot').survivor hu)
  have hlong := hw'.shortest.le u hsurvives huend
  have hafter : u ∈ after := by
    rw [hsplit, List.mem_append, List.mem_cons] at hu
    rcases hu with hu | rfl | hu
    · have := hbefore u hu
      omega
    · exact absurd huend hend.symm
    · exact hu
  have hsub : [w, u].Sublist (blastWalks (buildGraph edges') root).tail := by
    have hall : [w, u].Sublist (blastWalks (buildGraph edges') root) := by
      rw [hsplit]
      exact (List.Sublist.cons_cons w (List.singleton_sublist.mpr hafter)).trans (List.sublist_append_right _ _)
    rw [blastWalks_split hroot'] at hall
    cases hall with
    | cons _ h => exact h
    | cons_cons _ _ => exact absurd rfl hne
  rw [blastRadius_eq hroot', ← hentry]
  refine sortOn_stable (hsub.map (walkEntry root)) ?_
  rw [hentry]
  exact (neg_inj.mpr hround.symm).le

/-- **Needed**: where both functions see the same walk, first walks are the best ones as far as three decimals
    tell. -/
theorem firstIsBest_of_sameWalk (hunit : ∀ e ∈ edges, |e.r| ≤ 1) :
    FirstIsBest (roundAt 3) (buildGraph edges) root := by
  have hg := buildGraph_unitWeights hunit
  have hnodup := (blastRadius_pods (buildGraph edges) root).1
  refine ⟨?_, ?_, ?_⟩
  · intro w w' hw hne hw' hend
    obtain ⟨x, hx⟩ := (exists_impact_iff hg).mpr ⟨w, hw.shortest.survives, hne, rfl⟩
    have hlisted := hsame.impact _ (hsame.mem hcons hroot hw hne) x hx
    have hne' : w' ≠ [] := by
      rintro rfl
      have hmem := List.mem_map_of_mem (f := BlastEntry.pod) (hsame.mem hcons hroot hw hne)
      have hself : (walkEntry root w).pod = root := hend.symm
      rw [hself] at hmem
      exact (blastRadius_pods (buildGraph edges) root).2 hmem
    have hle := ((get?_forwardImpact_iff_walk hg).mp hx).2 w' hw' hne' hend
    calc roundAt 3 (walkImpact w') ≤ roundAt 3 x := roundAt_mono 3 hle
      _ = roundAt 3 (walkImpact w) := hlisted.symm
  · intro w w' hw hw' hend
    by_cases hne : w = []
    · subst hne
      have hzero := hw'.shortest.le [] Survivor.start hend.symm
      rw [List.length_nil, Nat.le_zero, List.length_eq_zero_iff] at hzero
      rw [hzero]
    · have hne' : w' ≠ [] := by
        rintro rfl
        have hzero := hw.shortest.le [] Survivor.start hend
        exact hne (List.length_eq_zero_iff.mp (Nat.le_zero.mp hzero))
      have hentry := List.inj_on_of_nodup_map hnodup (hsame.mem hcons hroot hw' hne')
        (hsame.mem hcons hroot hw hne) hend
      exact congrArg BlastEntry.etaS hentry
  · intro w w' hw hw' hlen hend hround
    have hbefore := hsame.listed_before hcons hroot hw hw' hlen hend hround
    have hafter := hsame.listed_before hcons hroot hw' hw hlen.symm hend.symm hround.symm
    exact not_sublist_swap (hnodup.of_map BlastEntry.pod) hbefore hafter

end Needed

/-! ## The result -/

/-- **Blast radius and explanatory reach are the same forward walk where first walks are the best ones.** For
    weights of at most 1 and any root of the graph: if no walk to a pod is worth more than a first walk to it,
    first walks to one pod take the same time and pods equally far away differ in impact, then both functions
    give the same pods with the same impacts, and the same list for every order of the edges; and they do so
    only if that holds of the impacts as they are served. -/
theorem blast_is_forward (edges : List Edge) (root : Pod) (hunit : ∀ e ∈ edges, |e.r| ≤ 1)
    (hcons : Consistent edges) (hroot : root ∈ (buildGraph edges).nodes) :
    (FirstIsBest id (buildGraph edges) root → SameWalk edges root) ∧
    (SameWalk edges root → FirstIsBest (roundAt 3) (buildGraph edges) root) := by
  constructor
  · exact fun h => sameWalk_of_firstIsBest hunit hcons hroot h
  · exact fun h => firstIsBest_of_sameWalk hcons hroot h hunit

/-- A chain of two edges, as the gate accepts them. -/
def twoHops : List Edge :=
  [⟨"cooling-monitor", "timescaledb", 9 / 10, 15, []⟩, ⟨"timescaledb", "dcim-bridge", 8 / 10, 20, []⟩]

/-- Its walks, by the only leg there is at each pod. -/
theorem twoHops_walks (h : Survivor (legs (buildGraph twoHops)) Lives "cooling-monitor" walk) :
    walk = [] ∨ walk = [("timescaledb", 9 / 10, 15)] ∨
      walk = [("timescaledb", 9 / 10, 15), ("dcim-bridge", 8 / 10, 20)] := by
  have hone : legs (buildGraph twoHops) "cooling-monitor" = [("timescaledb", 9 / 10, 15)] := by decide +kernel
  have htwo : legs (buildGraph twoHops) "timescaledb" = [("dcim-bridge", 8 / 10, 20)] := by decide +kernel
  have hend : legs (buildGraph twoHops) "dcim-bridge" = [] := by decide +kernel
  induction h with
  | start => exact Or.inl rfl
  | step _ ho _ ih =>
      rcases ih with rfl | rfl | rfl
      · change _ ∈ legs (buildGraph twoHops) "cooling-monitor" at ho
        rw [hone, List.mem_singleton] at ho
        exact Or.inr (Or.inl (by rw [ho]; rfl))
      · change _ ∈ legs (buildGraph twoHops) "timescaledb" at ho
        rw [htwo, List.mem_singleton] at ho
        exact Or.inr (Or.inr (by rw [ho]; rfl))
      · change _ ∈ legs (buildGraph twoHops) "dcim-bridge" at ho
        rw [hend] at ho
        exact absurd ho List.not_mem_nil

/-- A pod of the chain is the end of one walk only. -/
theorem twoHops_firstIsBest : FirstIsBest id (buildGraph twoHops) "cooling-monitor" := by
  have hone : ∀ {w w'}, Survivor (legs (buildGraph twoHops)) Lives "cooling-monitor" w →
      Survivor (legs (buildGraph twoHops)) Lives "cooling-monitor" w' →
      (walkEnd "cooling-monitor" w' = walkEnd "cooling-monitor" w ∨ w'.length = w.length) → w' = w := by
    intro w w' hw hw' h
    rcases twoHops_walks hw with rfl | rfl | rfl <;> rcases twoHops_walks hw' with rfl | rfl | rfl <;>
      first | rfl | exact absurd h (by decide)
  refine ⟨?_, ?_, ?_⟩
  · intro w w' hw _ hw' hend
    rw [hone hw.shortest.survives hw' (Or.inl hend)]
  · intro w w' hw hw' hend
    rw [hone hw.shortest.survives hw'.shortest.survives (Or.inl hend)]
  · intro w w' hw hw' hlen hne
    rw [hone hw.shortest.survives hw'.shortest.survives (Or.inr hlen)] at hne
    exact absurd rfl hne

theorem blast_is_forward_twoHops : SameWalk twoHops "cooling-monitor" :=
  (blast_is_forward twoHops "cooling-monitor" (by decide +kernel) (by decide +kernel) (by decide +kernel)).1
    twoHops_firstIsBest

/-- A weak edge beside a strong way round, and what lies behind. -/
def wayRound : List Edge :=
  [⟨"cooling-monitor", "dcim-bridge", 6 / 10, 5, []⟩, ⟨"cooling-monitor", "timescaledb", 1, 5, []⟩,
    ⟨"timescaledb", "dcim-bridge", 1, 5, []⟩, ⟨"dcim-bridge", "energy-monitor", 1, 5, []⟩,
    ⟨"energy-monitor", "alerting", 72 / 100, 5, []⟩]

/-- The weak edge comes first: the blast radius lists three pods under their impact or not at all. -/
theorem wayRound_understated : (∀ e ∈ wayRound, 6 / 10 ≤ |e.r| ∧ |e.r| ≤ 1) ∧
    (forwardImpact (buildGraph wayRound) "cooling-monitor").entries
      = [("dcim-bridge", 49 / 100), ("timescaledb", 7 / 10), ("energy-monitor", 343 / 1000),
        ("alerting", 172872 / 1000000)] ∧
    blastRadius (buildGraph wayRound) "cooling-monitor"
      = [⟨"timescaledb", 7 / 10, 5⟩, ⟨"dcim-bridge", 42 / 100, 5⟩, ⟨"energy-monitor", 294 / 1000, 10⟩] ∧
    ¬ SameWalk wayRound "cooling-monitor" := by
  have hblast : blastRadius (buildGraph wayRound) "cooling-monitor"
      = [⟨"timescaledb", 7 / 10, 5⟩, ⟨"dcim-bridge", 42 / 100, 5⟩, ⟨"energy-monitor", 294 / 1000, 10⟩] := by
    decide +kernel
  refine ⟨by decide +kernel, by decide +kernel, hblast, ?_⟩
  intro h
  obtain ⟨b, hb, hpod⟩ := (h.listed "alerting").mpr ⟨by decide, 172872 / 1000000, by decide +kernel⟩
  have hnone : ∀ b ∈ blastRadius (buildGraph wayRound) "cooling-monitor", b.pod ≠ "alerting" := by
    rw [hblast]
    decide
  exact hnone b hb hpod

end EdgeCausal
