import EdgeCausal.Correctness.BlastWalk
import EdgeCausal.Correctness.Forecast
import EdgeCausal.Correctness.GateSound
import EdgeCausal.Correctness.GridResample
import EdgeCausal.Correctness.MergedVerdict
import EdgeCausal.Correctness.Render
import EdgeCausal.Engine.Loop

/-!
# `Correctness.LivePods` — nothing is served about a pod that is gone

Edges are remembered by workload and outlive every pod; the window keeps a pod's samples long after it has died. What
is served names neither: every pod of a served graph, and every pod a warning is about, has a series in the window of
the very turn that served it, up to date within two steps of the grid (`served_pods_run`). It is followed from the
window through the vectors, the findings and edges of the passes, the held edges, and the merge.
-/

namespace EdgeCausal

open Lib

/-! ## Pods that run -/

/-- The pod has a wanted series in the window whose newest sample is at most two steps older than the newest sample
    of every other wanted series. -/
def RunsIn (cfg : LoopConfig) (fromisoformat : String → Option ℚ) (window : RawWindow) (pod : Pod) : Prop :=
  ∃ e ∈ window.entries, ∃ c, collected cfg.grid fromisoformat e = some c ∧ c.pod = pod ∧
    ∀ e' ∈ window.entries, ∀ c', collected cfg.grid fromisoformat e' = some c' →
      newestOf c'.pts ≤ newestOf c.pts + 2 * cfg.gridStepS

section Window
variable {grid : GridConfig} {fromisoformat : String → Option ℚ} {es : List (String × List RawSample)}
  {pod : Pod} {sig : Signal} {pts : List Stamped}

/-- What is gathered was collected from a key. -/
theorem exists_collected (h : ((es.foldl (gatherStep grid fromisoformat) .empty).raw sig).get? pod = some pts) :
    ∃ e ∈ es, collected grid fromisoformat e = some ⟨pod, sig, pts⟩ := by
  induction es using List.reverseRecOn with
  | nil => exact absurd h (by simp [Gathered.empty])
  | append_singleton es e ih =>
      rw [List.foldl_append, List.foldl_cons, List.foldl_nil] at h
      have hbefore : ∀ {p : List Stamped},
          ((es.foldl (gatherStep grid fromisoformat) .empty).raw sig).get? pod = some p → p = pts →
          ∃ e' ∈ es ++ [e], collected grid fromisoformat e' = some ⟨pod, sig, pts⟩ := by
        rintro p hp rfl
        obtain ⟨e', he', hc'⟩ := ih hp
        exact ⟨e', List.mem_append_left _ he', hc'⟩
      cases hc : collected grid fromisoformat e with
      | none =>
          rw [gatherStep_of_none hc] at h
          exact hbefore h rfl
      | some c =>
          obtain ⟨pod', sig', pts'⟩ := c
          rw [gatherStep_of_some hc] at h
          dsimp only at h
          by_cases hsame : sig = sig' ∧ pod = pod'
          · obtain ⟨rfl, rfl⟩ := hsame
            rw [Function.update_self, Dict.get?_set, if_pos rfl] at h
            obtain rfl := Option.some.inj h
            exact ⟨e, by simp, hc⟩
          · rw [update_get?_other _ hsame] at h
            exact hbefore h rfl

/-- No series is newer than the end of the grid. -/
theorem newestOf_le_latest {e : String × List RawSample} (he : e ∈ es) {c : Collected}
    (hc : collected grid fromisoformat e = some c) :
    newestOf c.pts ≤ (es.foldl (gatherStep grid fromisoformat) .empty).latest := by
  induction es using List.reverseRecOn with
  | nil => exact absurd he List.not_mem_nil
  | append_singleton es d ih =>
      rw [List.foldl_append, List.foldl_cons, List.foldl_nil]
      have hgrown : (es.foldl (gatherStep grid fromisoformat) .empty).latest
          ≤ (gatherStep grid fromisoformat (es.foldl (gatherStep grid fromisoformat) .empty) d).latest := by
        unfold gatherStep
        split
        · exact le_rfl
        · exact le_max_left _ _
      rcases List.mem_append.mp he with he | he
      · exact (ih he).trans hgrown
      · obtain rfl := List.mem_singleton.mp he
        rw [gatherStep_of_some hc]
        exact le_max_right _ _

end Window

section Vectors
variable {cfg : LoopConfig} {fromisoformat : String → Option ℚ} {window : RawWindow} {pod : Pod}
  {sig : Signal}

/-- **A pod with a vector runs.** -/
theorem runsIn_of_vector (events : List RawEvent)
    (h : pod ∈ ((buildInputs cfg.grid fromisoformat window events).1 sig).keys) :
    RunsIn cfg fromisoformat window pod := by
  obtain ⟨vec, hvec⟩ := Dict.mem_keys_iff_get?.mp h
  have hvec : (toVectors cfg.grid (gather cfg.grid fromisoformat window).latest
      ((gather cfg.grid fromisoformat window).raw sig)).get? pod = some vec := hvec
  unfold toVectors at hvec
  rw [Dict.get?_filterMap, Option.bind_eq_some_iff] at hvec
  obtain ⟨pts, hpts, hvec⟩ := hvec
  obtain ⟨e, he, hc⟩ := exists_collected hpts
  refine ⟨e, he, _, hc, rfl, ?_⟩
  intro e' he' c' hc'
  have hlatest : newestOf c'.pts ≤ (gather cfg.grid fromisoformat window).latest := newestOf_le_latest he' hc'
  unfold toVector at hvec
  cases pts with
  | nil => exact absurd hvec (by simp)
  | cons cur later =>
      dsimp only at hvec ⊢
      split at hvec
      · exact absurd hvec (by simp)
      · rename_i hfresh
        have hstep : cfg.grid.gridStepS = cfg.gridStepS := rfl
        rw [hstep] at hfresh
        linarith [not_lt.mp hfresh]

/-- The sources of a turn are vectors of the window. -/
theorem mem_writeVectors {events : List RawEvent} {t : Turn} {wv : Dict Pod Series}
    (h : (turnInput cfg fromisoformat window events t).writeVectors sig = some wv) :
    ∃ src, wv = (buildInputs cfg.grid fromisoformat window events).1 src := by
  have h : ((signalSource sig).bind fun s =>
      if ((buildInputs cfg.grid fromisoformat window events).1 s).entries = [] then none
      else some ((buildInputs cfg.grid fromisoformat window events).1 s)) = some wv := h
  obtain ⟨src, -, hsrc⟩ := Option.bind_eq_some_iff.mp h
  split at hsrc
  · exact absurd hsrc (by simp)
  · exact ⟨src, (Option.some.inj hsrc).symm⟩

end Vectors

/-! ## Graphs that name such pods only -/

/-- Every pod the graph names satisfies `L`. -/
structure ServedGraph.NamesOnly (L : Pod → Prop) (g : ServedGraph) : Prop where
  findings : ∀ f ∈ g.findings, L f.finding.pod
  edges : ∀ s ∈ g.edges, L s.edge.src ∧ L s.edge.dst

structure MergedGraph.NamesOnly (L : Pod → Prop) (g : MergedGraph) : Prop where
  findings : ∀ f ∈ g.findings, L f.finding.pod
  edges : ∀ s ∈ g.edges, L s.edge.src ∧ L s.edge.dst
  ranking : ∀ entry ∈ g.rootCauseRanking, L entry.pod
  blast : ∀ b ∈ g.blastRadius, L b.pod

/-- So does every pod a warning is about; an error names none. -/
def Served.NamesOnly (L : Pod → Prop) : Served → Prop
  | .graph g incipient _ => g.NamesOnly L ∧ ∀ w ∈ incipient, L w.pod
  | .error _ => True

variable {L : Pod → Prop}

theorem Served.NamesOnly.imp {L' : Pod → Prop} (hL : ∀ p, L p → L' p) {served : Served}
    (h : served.NamesOnly L) : served.NamesOnly L' := by
  cases served with
  | error msg => trivial
  | graph g incipient ts =>
      obtain ⟨hg, hwarned⟩ := h
      refine ⟨⟨?_, ?_, ?_, ?_⟩, ?_⟩
      · exact fun f hf => hL _ (hg.findings f hf)
      · exact fun s hs => ⟨hL _ (hg.edges s hs).1, hL _ (hg.edges s hs).2⟩
      · exact fun entry hentry => hL _ (hg.ranking entry hentry)
      · exact fun b hb => hL _ (hg.blast b hb)
      · exact fun w hw => hL _ (hwarned w hw)

/-! ### A pass -/

section Pass
variable {est : Estimators} {args : PassArgs}

theorem finding_mem_vectors {f : Finding} (h : f ∈ (runPass est args).findings) : f.pod ∈ args.vectors.keys := by
  have hactive : f.pod ∈ args.active := Dict.mem_keys_iff_get?.mpr ⟨f, mem_runPass_findings.mp h⟩
  obtain ⟨ons, hons⟩ := mem_active_iff_raw.mp hactive
  obtain ⟨vec, hvec, -⟩ := raw_spec hons
  exact Dict.mem_keys_iff_get?.mpr ⟨vec, hvec⟩

/-- The source of an edge may have a source vector only. -/
theorem edge_mem_vectors {e : Edge} (h : e ∈ (runPass est args).edges) :
    (e.src ∈ args.vectors.keys ∨ e.src ∈ args.writes.keys) ∧ e.dst ∈ args.vectors.keys := by
  rcases passEdges_spec h with hbare | hsource
  · exact ⟨Or.inl hbare.live.1, hbare.live.2⟩
  · obtain ⟨tw, tv, htw, -, -⟩ := hsource.stormed
    obtain ⟨wv, hwv, -⟩ := writeOnset_spec htw
    obtain ⟨ons, hons⟩ := mem_active_iff_raw.mp hsource.victim
    obtain ⟨vec, hvec, -⟩ := raw_spec hons
    exact ⟨Or.inr (Dict.mem_keys_iff_get?.mpr ⟨wv, hwv⟩), Dict.mem_keys_iff_get?.mpr ⟨vec, hvec⟩⟩

/-- **Rendering** adds no other pod: a held edge is drawn between the pods of its workloads that have a vector. -/
theorem namesOnly_observe (mem : MemoryConfig) (sha1 : CaseKey → CaseId) (m : Memory) (w : Option Witness) (ts now : ℚ)
    (hvectors : ∀ p ∈ args.vectors.keys, L p) (hwrites : ∀ p ∈ args.writes.keys, L p) :
    (observe mem sha1 m (runPass est args) args.vectors w ts now).2.NamesOnly L := by
  refine ⟨?_, ?_⟩
  · intro f hf
    obtain ⟨f', hf', rfl⟩ := List.mem_map.mp
      (show f ∈ (runPass est args).findings.map fun f => (⟨f, none⟩ : ServedFinding) from hf)
    exact hvectors _ (finding_mem_vectors hf')
  · intro s hs
    rcases mem_render_edges (mem_observe_edges hs) with hlive | ⟨key, row, hheld⟩
    · obtain ⟨hsrc, hdst⟩ := edge_mem_vectors hlive.accepted
      exact ⟨hsrc.elim (hvectors _) (hwrites _), hvectors _ hdst⟩
    · exact ⟨hvectors _ hheld.src.2, hvectors _ hheld.dst.2⟩

end Pass

/-! ### The merge -/

section Merge
variable {g : CGraph}

theorem ranked_mem_nodes {seeds : List Pod} {onsetS : Dict Pod ℚ} {top : ℕ} {entry : RankEntry}
    (h : entry ∈ rankRootCauses g seeds onsetS top) : entry.pod ∈ g.nodes := by
  rw [rankRootCauses_ne_nil (List.ne_nil_of_mem h)] at h
  obtain ⟨kv, hkv, rfl⟩ := List.mem_map.mp h
  have hscored : kv ∈ scores g (seedSet g seeds) := mem_sortOn.mp (List.mem_of_mem_take hkv)
  obtain ⟨n, hn, rfl⟩ := List.mem_map.mp (List.mem_filter.mp hscored).1
  exact hn

theorem blast_mem_nodes {root : Pod} {b : BlastEntry} (h : b ∈ blastRadius g root) : b.pod ∈ g.nodes := by
  obtain ⟨walk, hwalk⟩ := exists_witnessed h
  rw [← hwalk.ends]
  cases hwalk.survivor with
  | start => exact absurd rfl hwalk.nonempty
  | step _ ho _ =>
      rw [walkEnd_concat]
      exact legs_closed g _ _ ho

/-- A merge names the pods of what it merges. -/
theorem namesOnly_mergeGraphs {perSignal : Dict Signal ServedGraph} (primary : Option Signal)
    (h : ∀ sg ∈ perSignal.entries, sg.2.NamesOnly L) : (mergeGraphs perSignal primary).NamesOnly L := by
  have hedges : ∀ s ∈ mergedEdges perSignal, L s.edge.src ∧ L s.edge.dst := by
    intro s hs
    obtain ⟨sg, hsg, hs⟩ := List.mem_flatMap.mp hs
    obtain ⟨s', hs', rfl⟩ := List.mem_map.mp hs
    exact (h sg hsg).edges s' hs'
  have hnodes : ∀ n ∈ (servedGraph (mergedEdges perSignal)).nodes, L n := by
    intro n hn
    obtain ⟨s, hs, rfl | rfl⟩ := mem_nodes_servedGraph.mp hn
    · exact (hedges s hs).1
    · exact (hedges s hs).2
  refine ⟨?_, hedges, ?_, ?_⟩
  · intro f hf
    obtain ⟨sg, hsg, hf⟩ := List.mem_flatMap.mp (show f ∈ mergedFindings perSignal from hf)
    obtain ⟨f', hf', rfl⟩ := List.mem_map.mp hf
    exact (h sg hsg).findings f' hf'
  · intro entry hentry
    rcases mergedRanking_cases (mergeGraphs perSignal primary) rfl with hnil | ⟨-, hranked⟩
    · rw [hnil] at hentry
      exact absurd hentry List.not_mem_nil
    · rw [hranked] at hentry
      exact hnodes _ (ranked_mem_nodes hentry)
  · intro b hb
    have hb : b ∈ blastOfTop (servedGraph (mergedEdges perSignal)) (mergeGraphs perSignal primary).rootCauseRanking :=
      hb
    unfold blastOfTop at hb
    split at hb
    · exact absurd hb List.not_mem_nil
    · exact hnodes _ (blast_mem_nodes hb)

end Merge

/-! ### The loop -/

section Loop
variable {est : Estimators} {sha1 : CaseKey → CaseId} {cfg : LoopConfig} {fromisoformat : String → Option ℚ}

/-- **Signal by signal**, whatever raises: what is rendered names the pods of the vectors. -/
theorem turnSignal_namesOnly {inp : PassInput} {faults : Signal → Option (PassFault × String)} {cur : TurnRecord}
    {sig : Signal} (hvectors : ∀ p ∈ (inp.vectors sig).keys, L p)
    (hwrites : ∀ wv, inp.writeVectors sig = some wv → ∀ p ∈ wv.keys, L p)
    (h : ∀ sg ∈ cur.rendered.entries, sg.2.NamesOnly L) :
    ∀ sg ∈ (turnSignal est sha1 cfg inp faults cur sig).rendered.entries, sg.2.NamesOnly L := by
  unfold turnSignal
  split
  · exact h
  · dsimp only
    split
    · intro sg hsg
      rcases Dict.mem_of_mem_setEntry hsg with rfl | hsg
      · apply namesOnly_observe
        · exact hvectors
        · intro p hp
          unfold PassArgs.writes passArgs at hp
          cases hw : inp.writeVectors sig with
          | none =>
              rw [hw] at hp
              exact absurd hp (by simp)
          | some wv =>
              rw [hw] at hp
              exact hwrites wv hw p hp
      · exact h sg hsg
    · exact h
    · exact h
    · exact h
    · exact h

/-- **A turn** serves pods that run in its window. -/
theorem turn_namesOnly (eng : Engine) {t : Turn} {window : RawWindow} {events : List RawEvent}
    (hreply : t.reply = .ok (window, events)) :
    (turn est sha1 cfg fromisoformat eng t).served.NamesOnly (RunsIn cfg fromisoformat window) := by
  set inp := turnInput cfg fromisoformat window events t with hinp
  have hvectors : ∀ sig, ∀ p ∈ (inp.vectors sig).keys, RunsIn cfg fromisoformat window p :=
    fun sig p hp => runsIn_of_vector events hp
  have hrendered : ∀ sg ∈ (cfg.svc.signals.foldl (turnSignal est sha1 cfg inp t.faults)
      ⟨eng.conns, ∅, none⟩).rendered.entries, sg.2.NamesOnly (RunsIn cfg fromisoformat window) := by
    refine List.foldlRecOn (motive := fun cur : TurnRecord =>
      ∀ sg ∈ cur.rendered.entries, sg.2.NamesOnly (RunsIn cfg fromisoformat window)) _ _ (by simp) ?_
    intro cur hcur sig _
    refine turnSignal_namesOnly (hvectors sig) ?_ hcur
    intro wv hwv p hp
    obtain ⟨src, rfl⟩ := mem_writeVectors hwv
    exact runsIn_of_vector events hp
  unfold turn
  rw [hreply]
  dsimp only
  rw [← hinp]
  split
  · trivial
  · refine ⟨?_, ?_⟩
    · unfold turnMerged PassRecord.merged
      split
      · exact ⟨by simp, by simp, by simp, by simp⟩
      · exact namesOnly_mergeGraphs _ hrendered
    · intro w hw
      obtain ⟨kv, hkv, hw⟩ := List.mem_filterMap.mp (mem_sortOn.mp hw)
      have hpod : w.pod = kv.1 := incipientFinding_pod hw
      rw [hpod]
      exact hvectors _ _ (Dict.mem_keys_of_mem hkv)

/-- Before the first turn nothing is served about any pod: the bootstrapped graphs have no edge. -/
theorem boot_namesOnly (mems : Memories) (now : ℚ) : (boot cfg mems now).served.NamesOnly L := by
  refine ⟨?_, by simp⟩
  apply namesOnly_mergeGraphs
  intro sg hsg
  obtain ⟨key, g⟩ := sg
  obtain ⟨sig, -, hsig⟩ := List.mem_map.mp (Dict.mem_of_get?_ofList (Dict.get?_eq_some_iff.mpr hsg))
  obtain ⟨rfl, rfl⟩ := Prod.mk.inj hsig
  refine ⟨by simp [bootstrapGraph, render], ?_⟩
  intro s hs
  rcases mem_render_edges hs with hlive | ⟨key, row, hheld⟩
  · exact absurd hlive.accepted List.not_mem_nil
  · exact absurd hheld.src.2 (by simp)

/-- The pod runs in the window of the last event, a turn. -/
def RunsAfter (cfg : LoopConfig) (fromisoformat : String → Option ℚ) (events : List LoopEvent) (pod : Pod) : Prop :=
  ∃ t window evts, events.getLast? = some (.turn t) ∧ t.reply = .ok (window, evts) ∧
    RunsIn cfg fromisoformat window pod

/-- **What is served after a turn names what runs in its window**; after anything else, nothing. -/
theorem loop_namesOnly (mems : Memories) (start : ℚ) {events : List LoopEvent}
    (hL : ∀ t window evts, events.getLast? = some (.turn t) → t.reply = .ok (window, evts) →
      ∀ pod, RunsIn cfg fromisoformat window pod → L pod) :
    (loop est sha1 cfg fromisoformat (boot cfg mems start) events).served.NamesOnly L := by
  rcases List.eq_nil_or_concat events with rfl | ⟨before, event, rfl⟩
  · exact boot_namesOnly mems start
  · rw [List.concat_eq_append] at hL ⊢
    unfold loop
    rw [List.foldl_append]
    cases event with
    | restart now => exact boot_namesOnly _ now
    | turn t =>
        cases hreply : t.reply with
        | error msg =>
            show (turn est sha1 cfg fromisoformat _ t).served.NamesOnly _
            unfold turn
            rw [hreply]
            trivial
        | ok fetched =>
            obtain ⟨window, evts⟩ := fetched
            exact Served.NamesOnly.imp (hL t window evts (by simp) hreply) (turn_namesOnly _ hreply)

end Loop

/-- **Nothing is served about a pod that is gone.** Whatever befell the process before, and whatever the files hold:
    every pod that is served as a finding, as an end of an edge, in the ranking, in the blast radius or in a warning
    runs in the window of the last turn. -/
theorem served_pods_run (est : Estimators) (sha1 : CaseKey → CaseId) (cfg : LoopConfig)
    (fromisoformat : String → Option ℚ) (mems : Memories) (start : ℚ) (events : List LoopEvent) :
    (loop est sha1 cfg fromisoformat (boot cfg mems start) events).served.NamesOnly
      (RunsAfter cfg fromisoformat events) :=
  loop_namesOnly mems start fun t window evts hlast hreply _ hpod => ⟨t, window, evts, hlast, hreply, hpod⟩

end EdgeCausal
