import EdgeCausal.Collections.Tally
import EdgeCausal.Correctness.ForwardImpact
import EdgeCausal.Correctness.GateSound
import EdgeCausal.Correctness.Recognition

/-!
# `Correctness.Bookkeeping` — the case table sums up its observations

The observations are a log with the case id as key, and the case table is meant to be its summary: a count
and a mean lead time per case. The mean is kept up by dividing by a count that advances with every pass, so
it is right only if every promoting pass has a lead time. That holds of the graphs of `runPass`: the edges
are strong enough to leave the top-ranked pod with a blast radius.
-/

namespace EdgeCausal

open Lib

/-! ## A root takes something down -/

section Blast
variable {g : CGraph} {root : Pod} {w : ℚ} {eta : ℕ} {s : BlastState}

theorem blastStep_grows (out : Pod × EdgeData) : s.out <+: (blastStep w eta s out).out := by
  unfold blastStep
  dsimp only
  split
  · exact List.prefix_rfl
  · exact List.prefix_append _ _

theorem foldl_blastStep_grows (w : ℚ) (eta : ℕ) (s : BlastState) (outs : List (Pod × EdgeData)) :
    s.out <+: (outs.foldl (blastStep w eta) s).out := by
  refine List.foldlRecOn (motive := fun t : BlastState => s.out <+: t.out) outs _ List.prefix_rfl ?_
  intro t ht out _
  exact ht.trans (blastStep_grows out)

theorem blastLoop_grows (fuel : ℕ) : s.out <+: (blastLoop g fuel s).out := by
  induction fuel generalizing s with
  | zero => exact List.prefix_rfl
  | succ fuel ih =>
      unfold blastLoop
      split
      · exact List.prefix_rfl
      · rename_i node w eta rest _
        exact (foldl_blastStep_grows w eta { s with frontier := rest } (g.outEdges node)).trans ih

/-- A successor above the cut is reported, whatever comes before it. -/
theorem foldl_blastStep_ne_nil {outs : List (Pod × EdgeData)} {out : Pod × EdgeData} (hmem : out ∈ outs)
    (hseen : s.out = [] → out.1 ∉ s.seen) (hcut : cut ≤ w * out.2.weight * decay) :
    (outs.foldl (blastStep w eta) s).out ≠ [] := by
  induction outs generalizing s with
  | nil => exact absurd hmem List.not_mem_nil
  | cons o outs ih =>
      rw [List.foldl_cons]
      by_cases hone : (blastStep w eta s o).out = []
      · -- nothing reported yet, so nothing new is seen either
        have hsame : blastStep w eta s o = s := by
          unfold blastStep at hone ⊢
          dsimp only at hone ⊢
          split at hone
          · rename_i h
            rw [if_pos h]
          · exact absurd hone (by simp)
        rw [hsame] at hone ⊢
        rcases List.mem_cons.mp hmem with rfl | hmem
        · have hnot : ¬ (out.1 ∈ s.seen ∨ w * out.2.weight * decay < cut) := by
            rw [not_or, not_lt]
            exact ⟨hseen hone, hcut⟩
          unfold blastStep at hsame
          dsimp only at hsame
          rw [if_neg hnot] at hsame
          have hout := congrArg BlastState.out hsame
          dsimp only at hout
          rw [hone] at hout
          exact absurd hout (by simp)
        · exact ih hmem hseen
      · intro hnil
        have hgrows := foldl_blastStep_grows w eta (blastStep w eta s o) outs
        rw [hnil] at hgrows
        exact hone (List.prefix_nil.mp hgrows)

/-- A pod with a strong edge to another pod has a blast radius. -/
theorem blastRadius_ne_nil {v : Pod} {data : EdgeData} (hedge : (v, data) ∈ g.outEdges root) (hne : v ≠ root)
    (hcut : cut ≤ data.weight * decay) : blastRadius g root ≠ [] := by
  have hroot : root ∈ g.nodes :=
    (g.closed _ (Dict.mem_keys_iff_get?.mpr ⟨data, DiGraph.mem_outEdges.mp hedge⟩)).1
  have hfirst : ((g.outEdges root).foldl (blastStep 1 0) ⟨[root], [], []⟩).out ≠ [] := by
    refine foldl_blastStep_ne_nil hedge ?_ ?_
    · intro _
      simpa using hne
    · rw [one_mul]
      exact hcut
  have hloop : (blastLoop g (g.nodes.length + 1) ⟨[root], [], [(root, 1, 0)]⟩).out ≠ [] := by
    intro hnil
    have hgrows := blastLoop_grows (g := g) (s := (g.outEdges root).foldl (blastStep 1 0) ⟨[root], [], []⟩)
      g.nodes.length
    have hnil' : (blastLoop g g.nodes.length
        ((g.outEdges root).foldl (blastStep 1 0) ⟨[root], [], []⟩)).out = [] := hnil
    rw [hnil'] at hgrows
    exact hfirst (List.prefix_nil.mp hgrows)
  unfold blastRadius
  rw [if_pos hroot]
  intro hsort
  have hperm := sortOn_perm (fun b : BlastEntry => -b.impact)
    (blastLoop g (g.nodes.length + 1) ⟨[root], [], [(root, 1, 0)]⟩).out
  rw [hsort] at hperm
  exact hloop (List.nil_perm.mp hperm)

end Blast

/-- Every ranked pod has an out-edge. -/
theorem leaves_of_ranked {edges : List Edge} {seeds : List Pod} {onsetS : Dict Pod ℚ} {top : ℕ}
    {entry : RankEntry} (h : entry ∈ rankRootCauses (buildGraph edges) seeds onsetS top) :
    ∃ e ∈ edges, e.src = entry.pod := by
  obtain ⟨hnode, hpos⟩ := explain_pos_of_ranked h
  rcases reaches_of_explain hpos with ⟨v, -, hreach⟩ | ⟨-, hdeg⟩
  · obtain ⟨e, he, hsrc, -⟩ := hreach.leaves
    exact ⟨e, he, hsrc⟩
  · -- a node that nothing points at is on the graph as a source
    obtain ⟨e, he, hsrc | hdst⟩ := mem_nodes_buildGraph.mp hnode
    · exact ⟨e, he, hsrc⟩
    · have hin := buildGraph_inDegree_pos.mpr ⟨e, he, hdst⟩
      rw [hdeg] at hin
      exact absurd hin (lt_irrefl 0)

section Pass
variable {est : Estimators} {args : PassArgs} {e : Edge}

/-- An admitted edge is strong and joins two pods. -/
theorem passEdges_strong (h : e ∈ passEdges est args) : rSrc ≤ e.r ∧ e.src ≠ e.dst := by
  rcases passEdges_spec h with hb | hs
  · exact ⟨hb.sound.r_ge.trans' (by norm_num [rSrc, rPeak]), hb.ne⟩
  · exact ⟨hs.sound.r_ge, hs.ne⟩

/-- **A root has victims.** The top-ranked pod of a pass has a blast radius. -/
theorem runPass_blast {top : RankEntry} {rest : List RankEntry}
    (h : (runPass est args).rootCauseRanking = top :: rest) : (runPass est args).blastRadius ≠ [] := by
  have hmem : top ∈ (runPass est args).rootCauseRanking := by
    rw [h]
    exact List.mem_cons_self
  obtain ⟨e, he, hsrc⟩ : ∃ e ∈ passEdges est args, e.src = top.pod := leaves_of_ranked hmem
  have hjoin : ∃ data, (buildGraph (passEdges est args)).edges.get? (top.pod, e.dst) = some data :=
    buildGraph_joins.mpr ⟨e, he, hsrc, rfl⟩
  obtain ⟨data, hdata⟩ := hjoin
  obtain ⟨e', he', hsrc', hdst', hweight⟩ := buildGraph_weight hdata
  have hstrong := passEdges_strong he'
  have hcut : cut ≤ data.weight * decay := by
    have habs : rSrc ≤ |e'.r| := hstrong.1.trans (le_abs_self e'.r)
    rw [hweight]
    calc cut ≤ rSrc * decay := by norm_num [cut, rSrc, decay]
      _ ≤ |e'.r| * decay := mul_le_mul_of_nonneg_right habs (by norm_num [decay])
  have hne : e.dst ≠ top.pod := by
    rw [← hsrc', ← hdst']
    exact hstrong.2.symm
  show blastOfTop (buildGraph (passEdges est args)) (runPass est args).rootCauseRanking ≠ []
  rw [h]
  exact blastRadius_ne_nil (DiGraph.mem_outEdges.mpr hdata) hne hcut

/-- A promoting pass has a lead time. -/
theorem runPass_leadTime {cfg : MemoryConfig} {fp : CaseKey}
    (h : fingerprint cfg (runPass est args) = some fp) :
    ∃ l, leadTime (runPass est args) = some l := by
  have hroot : ∃ top rest, (runPass est args).rootCauseRanking = top :: rest := by
    cases hrank : (runPass est args).rootCauseRanking with
    | nil =>
        unfold fingerprint at h
        rw [hrank] at h
        exact absurd h (by simp)
    | cons top rest => exact ⟨top, rest, rfl⟩
  obtain ⟨top, rest, hrank⟩ := hroot
  have hblast := runPass_blast hrank
  unfold leadTime
  dsimp only
  rw [if_pos (by simpa using hblast)]
  exact ⟨_, rfl⟩

end Pass

/-! ## The summary of the observations -/

/-- The case table is the summary of the observations: each case's count is the number of its observations,
    its lead time is their exact mean, and over all cases the counts add up to the observations. -/
structure Conserved (cases : Dict CaseId CaseRow) (obs : List CaseObservation) : Prop where
  counted : ∀ id row, cases.get? id = some row → row.occurrences = (under CaseObservation.caseId obs id).length
  total : (cases.values.map CaseRow.occurrences).sum = obs.length
  mean : ∀ id row, cases.get? id = some row → ∃ leads, leads ≠ [] ∧
    (under CaseObservation.caseId obs id).map (fun o => leadTime o.graph) = leads.map some ∧
    row.typicalLeadTimeS = some (average leads)

/-- What one row of the case table owes to the observations under its id. -/
structure Summarises (row : CaseRow) (obs : List CaseObservation) (leads : List ℚ) : Prop where
  counted : row.occurrences = obs.length
  nonempty : leads ≠ []
  known : obs.map (fun o => leadTime o.graph) = leads.map some
  mean : row.typicalLeadTimeS = some (average leads)

/-- Every observation belongs to a stored case, and every case summarises its own. -/
structure Kept (cases : Dict CaseId CaseRow) (obs : List CaseObservation) : Prop where
  stored : ∀ o ∈ obs, o.caseId ∈ cases.keys
  rows : ∀ id row, cases.get? id = some row →
    ∃ leads, Summarises row (under CaseObservation.caseId obs id) leads

section Summary
variable {cases : Dict CaseId CaseRow} {obs : List CaseObservation} {o : CaseObservation} {row : CaseRow}
  {leads : List ℚ} {l ts : ℚ}

theorem Kept.conserved (h : Kept cases obs) : Conserved cases obs := by
  refine ⟨?_, ?_, ?_⟩
  · intro id row hrow
    obtain ⟨leads, hsum⟩ := h.rows id row hrow
    exact hsum.counted
  · have hmap : cases.values.map CaseRow.occurrences
        = cases.keys.map fun id => (under CaseObservation.caseId obs id).length := by
      unfold Dict.values Dict.keys
      rw [List.map_map, List.map_map]
      refine List.map_congr_left ?_
      rintro ⟨id, row⟩ hmem
      obtain ⟨leads, hsum⟩ := h.rows id row (Dict.get?_eq_some_iff.mpr hmem)
      exact hsum.counted
    rw [hmap]
    exact sum_length_under cases.keys_nodup h.stored
  · intro id row hrow
    obtain ⟨leads, hsum⟩ := h.rows id row hrow
    exact ⟨leads, hsum.nonempty, hsum.known, hsum.mean⟩

/-- The running mean of a fold. -/
theorem foldCase_lead {old : ℚ} (h : row.typicalLeadTimeS = some old) :
    (foldCase ts (some l) row).typicalLeadTimeS
      = some ((old * row.occurrences + l) / (row.occurrences + 1 : ℕ)) := by
  unfold foldCase
  rw [h]

/-- Folding one more observation into a row. -/
theorem Summarises.fold (h : Summarises row obs leads) (hlead : leadTime o.graph = some l) :
    Summarises (foldCase ts (leadTime o.graph) row) (obs ++ [o]) (leads ++ [l]) := by
  have hlen : leads.length = row.occurrences := by
    rw [h.counted]
    simpa using (congrArg List.length h.known).symm
  refine ⟨?_, by simp, ?_, ?_⟩
  · show row.occurrences + 1 = _
    rw [h.counted, List.length_append, List.length_singleton]
  · rw [List.map_append, List.map_append, h.known, List.map_singleton, hlead]
    rfl
  · rw [hlead, foldCase_lead h.mean, average_concat h.nonempty, hlen]

/-- The first observation of a row. -/
theorem Summarises.first (fp : CaseKey) (family : CaseId) (hlead : leadTime o.graph = some l) :
    Summarises ⟨fp, 1, ts, ts, leadTime o.graph, some family⟩ [o] [l] := by
  refine ⟨rfl, by simp, by simp [hlead], ?_⟩
  rw [average_singleton]
  exact hlead

/-- Another observation of a case changes the case's own row only. -/
theorem Kept.observe (h : Kept cases obs)
    (hnew : ∃ leads, Summarises row (under CaseObservation.caseId obs o.caseId ++ [o]) leads) :
    Kept (cases.set o.caseId row) (obs ++ [o]) := by
  refine ⟨?_, ?_⟩
  · intro o' ho'
    rw [Dict.mem_keys_set]
    rcases List.mem_append.mp ho' with ho' | ho'
    · exact Or.inr (h.stored o' ho')
    · obtain rfl := List.mem_singleton.mp ho'
      exact Or.inl rfl
  · intro id row' hrow'
    rw [Dict.get?_set] at hrow'
    by_cases hid : id = o.caseId
    · subst hid
      rw [if_pos rfl] at hrow'
      obtain rfl := Option.some.inj hrow'
      rw [under_concat_self rfl]
      exact hnew
    · rw [if_neg hid] at hrow'
      rw [under_concat_of_ne (Ne.symm hid)]
      exact h.rows id row' hrow'

theorem Kept.fold (h : Kept cases obs) (hrow : cases.get? o.caseId = some row)
    (hlead : leadTime o.graph = some l) :
    Kept (cases.set o.caseId (foldCase ts (leadTime o.graph) row)) (obs ++ [o]) := by
  obtain ⟨leads, hsum⟩ := h.rows o.caseId row hrow
  exact h.observe ⟨leads ++ [l], hsum.fold hlead⟩

theorem Kept.insert (h : Kept cases obs) (hnew : cases.get? o.caseId = none) (fp : CaseKey) (family : CaseId)
    (hlead : leadTime o.graph = some l) :
    Kept (cases.set o.caseId ⟨fp, 1, ts, ts, leadTime o.graph, some family⟩) (obs ++ [o]) := by
  have hfresh : ∀ o' ∈ obs, o'.caseId ≠ o.caseId := by
    intro o' ho' heq
    exact Dict.get?_eq_none_iff.mp hnew (heq ▸ h.stored o' ho')
  have hnone : under CaseObservation.caseId obs o.caseId = [] := under_eq_nil hfresh
  refine h.observe ⟨[l], ?_⟩
  rw [hnone, List.nil_append]
  exact Summarises.first fp family hlead

end Summary

/-! ## Runs -/

section Run
variable {cfg : MemoryConfig} {sha1 : CaseKey → CaseId} {m : Memory} {c : ObserveCall} {fp : CaseKey}

/-- The observation a promotion records. -/
def observation (cfg : MemoryConfig) (sha1 : CaseKey → CaseId) (m : Memory) (c : ObserveCall) (fp : CaseKey) :
    CaseObservation :=
  ⟨c.ts, (tagFor cfg sha1 m.cases fp).caseId, fp.stressors.headD "", fp.victims, c.graph⟩

theorem observeStep_caseObservations (cfg : MemoryConfig) (sha1 : CaseKey → CaseId) (m : Memory)
    (c : ObserveCall) :
    (observeStep cfg sha1 m c).caseObservations
      = m.caseObservations ++ ((fingerprint cfg c.graph).map (observation cfg sha1 m c)).toList := by
  unfold observeStep observe remember promoteCase
  dsimp only
  cases fingerprint cfg c.graph with
  | none =>
      dsimp only
      split
      · exact (List.append_nil _).symm
      · exact (List.append_nil _).symm
  | some fp =>
      dsimp only
      split <;> rfl

/-- The calls of a run are on graphs of `runPass`. -/
def OnPasses (calls : List ObserveCall) : Prop := ∀ c ∈ calls, ∃ est args, c.graph = runPass est args

/-- **Step.** A promotion keeps the table the summary of the observations. -/
theorem Learned.kept {past : List CaseKey} (h : Learned cfg sha1 past m.cases) (hcfg : Thresholds cfg)
    (hfree : CollisionFree sha1 (past ++ [fp])) (hkept : Kept m.cases m.caseObservations) {l : ℚ}
    (hlead : leadTime c.graph = some l) :
    Kept (storeCase c.ts (leadTime c.graph) fp (tagFor cfg sha1 m.cases fp) m.cases)
      (m.caseObservations ++ [observation cfg sha1 m c fp]) := by
  rcases tagFor_cases hcfg.merge_pos sha1 m.cases fp with ⟨htag, -, row, hrow, -⟩ | ⟨htag, -⟩
  · rw [storeCase_recurrence htag hrow]
    exact hkept.fold (o := observation cfg sha1 m c fp) hrow hlead
  · obtain ⟨hid, hnew, -⟩ := h.stored hcfg.merge_pos hcfg.merge_le hfree htag c.ts (leadTime c.graph)
    rw [← hid] at hnew
    rw [storeCase_insert htag hnew]
    exact hkept.insert (o := observation cfg sha1 m c fp) hnew fp _ hlead

end Run

/-- **Case bookkeeping conserves incidents.** Over every run, from an empty library, of calls on graphs of
    `runPass` in which no two promoted fingerprints share an id: the case table is at every point the summary
    of the observations, and there is one observation for every pass that promoted a case. -/
theorem caseBookkeeping (cfg : MemoryConfig) (hcfg : Thresholds cfg) (sha1 : CaseKey → CaseId)
    (start : Memory) (hcases : start.cases = ∅) (hobs : start.caseObservations = [])
    (calls : List ObserveCall) (hpass : OnPasses calls) (hfree : CollisionFree sha1 (promotedKeys cfg calls)) :
    ∀ i ≤ calls.length, let m := stateAt (observeStep cfg sha1) start calls i
      Conserved m.cases m.caseObservations ∧
        m.caseObservations.length = (promotedKeys cfg (calls.take i)).length := by
  have hrun : ∀ i, Kept (stateAt (observeStep cfg sha1) start calls i).cases
        (stateAt (observeStep cfg sha1) start calls i).caseObservations ∧
      (stateAt (observeStep cfg sha1) start calls i).caseObservations.length
        = (promotedKeys cfg (calls.take i)).length := by
    intro i
    induction i with
    | zero =>
        rw [stateAt_zero, hcases, hobs]
        exact ⟨⟨by simp, fun id row hrow => absurd hrow (by simp)⟩, rfl⟩
    | succ i ih =>
        obtain ⟨hkept, hlen⟩ := ih
        cases hc : calls[i]? with
        | none =>
            rw [stateAt_succ_of_none hc, List.take_add_one, hc]
            exact ⟨hkept, by simpa using hlen⟩
        | some c =>
            rw [stateAt_succ hc, promotedKeys_take_succ hc, observeStep_caseObservations]
            cases hfp : fingerprint cfg c.graph with
            | none =>
                rw [observeStep_cases_none hfp]
                exact ⟨by simpa using hkept, by simpa using hlen⟩
            | some fp =>
                rw [observeStep_cases_some hfp]
                obtain ⟨est, args, hgraph⟩ := hpass c (List.mem_of_getElem? hc)
                obtain ⟨l, hl⟩ := runPass_leadTime (hgraph ▸ hfp)
                rw [← hgraph] at hl
                have hlearned := learned_stateAt hcfg hcases hfree i
                refine ⟨hlearned.kept hcfg (hfree.upTo hc hfp) hkept hl, ?_⟩
                rw [List.length_append, List.length_append, hlen]
                rfl
  intro i _ m
  exact ⟨(hrun i).1.conserved, (hrun i).2⟩

/-- Two storms on one tenant. -/
def tenantStorms : List ObserveCall :=
  [tenantCall "tenant-29f14be7fe9ed69e-7c9d4-bbb22" 5, tenantCall "tenant-29f14be7fe9ed69e-7c9d4-bbb22" 10]

theorem tenantCall_onPass {calls : List ObserveCall} (h : ∀ c ∈ calls, ∃ tenant ts, c = tenantCall tenant ts) :
    OnPasses calls := by
  intro c hc
  obtain ⟨tenant, ts, rfl⟩ := h c hc
  exact ⟨numericEstimators, tenantArgs tenant, rfl⟩

theorem tenantStorms_onPasses : OnPasses tenantStorms :=
  tenantCall_onPass (by
    intro c hc
    simp only [tenantStorms, List.mem_cons, List.not_mem_nil, or_false] at hc
    rcases hc with rfl | rfl
    · exact ⟨_, _, rfl⟩
    · exact ⟨_, _, rfl⟩)

theorem caseBookkeeping_tenantStorms :
    let m := stateAt (observeStep MemoryConfig.default caseHash) Memory.empty tenantStorms 2
    m.cases.keys.length = 1 ∧ Conserved m.cases m.caseObservations :=
  ⟨by decide +kernel, (caseBookkeeping MemoryConfig.default
    ⟨by decide +kernel, by decide +kernel, by decide +kernel⟩ caseHash Memory.empty rfl rfl tenantStorms
    tenantStorms_onPasses (by unfold CollisionFree; decide +kernel) 2 (by decide)).1⟩

/-! ### Two tenants under one id -/

theorem tenantCalls_onPasses : OnPasses tenantCalls :=
  tenantCall_onPass (by
    intro c hc
    simp only [tenantCalls, List.mem_cons, List.not_mem_nil, or_false] at hc
    rcases hc with rfl | rfl | rfl
    · exact ⟨_, _, rfl⟩
    · exact ⟨_, _, rfl⟩
    · exact ⟨_, _, rfl⟩)

/-- Three incidents were observed under the one id, and its case counts the first only. -/
theorem tenantCalls_not_conserved :
    let m := stateAt (observeStep MemoryConfig.default caseHash) Memory.empty tenantCalls 3
    OnPasses tenantCalls ∧ ¬ Conserved m.cases m.caseObservations := by
  intro m
  have hcounts : m.cases.values.map CaseRow.occurrences = [1] ∧ m.caseObservations.length = 3 := by
    decide +kernel
  refine ⟨tenantCalls_onPasses, ?_⟩
  intro h
  have htotal := h.total
  rw [hcounts.1, hcounts.2] at htotal
  exact absurd htotal (by decide)

end EdgeCausal
