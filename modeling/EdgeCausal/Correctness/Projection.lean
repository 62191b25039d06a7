import EdgeCausal.Correctness.RowHistory
import EdgeCausal.Correctness.Render

/-!
# `Correctness.Projection` — pod edges against workload rows

`stableWorkload` is many-to-one. Seeding guards against a pair that collapses to one workload; the
confirmation loop runs over pod edges and guards against nothing. A call therefore confirms each workload
pair once and keeps self rows out exactly when its edges already are one per workload pair.
-/

namespace EdgeCausal

open Lib

variable {cfg : MemoryConfig} {sha1 : CaseKey → CaseId} {m : Memory} {c : ObserveCall} {k : EdgeKey}
  {row : Option EdgeRow} {r : EdgeRow}

/-! ## Counting confirmations -/

/-- The confirmations a row has had, 0 when there is no row. -/
def hitsOf (row : Option EdgeRow) : ℕ := (row.map EdgeRow.hits).getD 0

theorem confirmRow_hits (e : Edge) (ts : ℚ) (row : Option EdgeRow) :
    (confirmRow cfg e ts row).hits = hitsOf row + 1 := by
  cases row <;> simp [confirmRow, hitsOf]

theorem hitsOf_confirmRows (edges : List Edge) (ts : ℚ) (row : Option EdgeRow) :
    hitsOf (confirmRows cfg ts edges row) = hitsOf row + edges.length := by
  induction edges generalizing row with
  | nil => rfl
  | cons e es ih =>
      show hitsOf (confirmRows cfg ts es (some (confirmRow cfg e ts row))) = _
      rw [ih, show hitsOf (some (confirmRow cfg e ts row)) = (confirmRow cfg e ts row).hits from rfl,
        confirmRow_hits, List.length_cons]
      omega

theorem hitsOf_seededRow (w : Option Witness) (present : List Workload) (ts : ℚ) (k : EdgeKey)
    (row : Option EdgeRow) : hitsOf (seededRow cfg w present ts k row) = hitsOf row := by
  unfold seededRow
  split
  · cases row with
    | none => rfl
    | some old =>
        by_cases hlt : old.baseConf < cfg.prior
        · simp [hitsOf, seedRow, hlt]
        · simp [hitsOf, seedRow, hlt]
  · rfl

/-- The edges of a call that project to the key. -/
def ObserveCall.ownEdges (cfg : MemoryConfig) (c : ObserveCall) (k : EdgeKey) : List Edge :=
  c.graph.edges.filter (edgeKey cfg · = k)

/-- The row a call's confirmations start from. -/
def ObserveCall.seededRow (cfg : MemoryConfig) (c : ObserveCall) (k : EdgeKey) (row : Option EdgeRow) :
    Option EdgeRow := EdgeCausal.seededRow cfg c.witness c.present c.ts k row

theorem rowAfter_of_projects (h : Projects cfg c.graph.edges k) :
    c.rowAfter cfg k row = confirmRows cfg c.ts (c.ownEdges cfg k) (c.seededRow cfg k row) := by
  rcases rowAfter_cases cfg c.graph.edges c.present c.witness c.ts k row with
    ⟨-, heq⟩ | ⟨hp, -⟩ | ⟨hp, -⟩
  · exact heq
  · exact absurd h hp
  · exact absurd h hp

/-- A confirmed row has one more hit for each edge that projects to it. -/
theorem hits_after (h : Projects cfg c.graph.edges k) (hr : c.rowAfter cfg k row = some r) :
    r.hits = hitsOf row + (c.ownEdges cfg k).length := by
  have hhits : hitsOf (some r) = hitsOf row + (c.ownEdges cfg k).length := by
    rw [← hr, rowAfter_of_projects h, hitsOf_confirmRows]
    unfold ObserveCall.seededRow
    rw [hitsOf_seededRow]
  exact hhits

/-! ## The property and its condition -/

/-- The row of the key is confirmed exactly once by the call, from where seeding left it. -/
def ConfirmedOnce (cfg : MemoryConfig) (sha1 : CaseKey → CaseId) (m : Memory) (c : ObserveCall)
    (k : EdgeKey) : Prop :=
  let before := m.edgeMemory.get? k
  let conf := confidenceOf (c.seededRow cfg k before)
  ∃ r, (observeStep cfg sha1 m c).edgeMemory.get? k = some r ∧ r.hits = hitsOf before + 1 ∧
    r.confidence = conf + cfg.alpha * (1 - conf)

/-- No row joins a workload to itself. -/
def NoSelfRow (m : Memory) : Prop := ∀ k r, m.edgeMemory.get? k = some r → k.1 ≠ k.2.1

/-- What the projection to workloads promises of a call. -/
structure ProjectedOnce (cfg : MemoryConfig) (sha1 : CaseKey → CaseId) (m : Memory) (c : ObserveCall) :
    Prop where
  once : ∀ u v, u ≠ v → Projects cfg c.graph.edges (u, v, cfg.signal) →
    ConfirmedOnce cfg sha1 m c (u, v, cfg.signal)
  created : NoSelfRow (observeStep cfg sha1 m c)
  rendered : ∀ s ∈ (observe cfg sha1 m c.graph c.vectors c.witness c.ts c.now).2.edges,
    stableWorkload s.edge.src ≠ stableWorkload s.edge.dst

/-- One edge per ordered pair of different workloads, over a memory without self rows. -/
structure OneEdgePerPair (cfg : MemoryConfig) (m : Memory) (c : ObserveCall) : Prop where
  noSelfRow : NoSelfRow m
  apart : ∀ e ∈ c.graph.edges, stableWorkload e.src ≠ stableWorkload e.dst
  distinct : (c.graph.edges.map (edgeKey cfg)).Nodup

/-! ## Enough -/

/-- A self row is made only by an edge inside one workload. -/
theorem rowAfter_none_of_self (hself : k.1 = k.2.1)
    (hapart : ∀ e ∈ c.graph.edges, stableWorkload e.src ≠ stableWorkload e.dst) :
    c.rowAfter cfg k none = none := by
  have hp : ¬ Projects cfg c.graph.edges k := by
    rintro ⟨e, he, rfl⟩
    exact hapart e he hself
  have hs : ¬ Seeds cfg c.witness c.present k := fun h => h.lt.ne hself
  unfold ObserveCall.rowAfter
  rcases rowAfter_cases cfg c.graph.edges c.present c.witness c.ts k none with
    ⟨h, -⟩ | ⟨-, -, heq⟩ | ⟨-, -, -, heq⟩
  · exact absurd h hp
  · rw [heq, EdgeCausal.seededRow, if_neg hs]; rfl
  · exact heq

theorem noSelfRow_after (hm : NoSelfRow m)
    (hapart : ∀ e ∈ c.graph.edges, stableWorkload e.src ≠ stableWorkload e.dst) :
    NoSelfRow (observeStep cfg sha1 m c) := by
  intro k r hr hself
  have hnone : m.edgeMemory.get? k = none := by
    cases h : m.edgeMemory.get? k with
    | none => rfl
    | some old => exact absurd hself (hm k old h)
  rw [observeStep_get?, hnone, rowAfter_none_of_self hself hapart] at hr
  exact absurd hr (by simp)

/-- A rendered edge joins two workloads when no edge and no row is inside one. -/
theorem rendered_apart (hm : NoSelfRow (observeStep cfg sha1 m c))
    (hapart : ∀ e ∈ c.graph.edges, stableWorkload e.src ≠ stableWorkload e.dst) :
    ∀ s ∈ (observe cfg sha1 m c.graph c.vectors c.witness c.ts c.now).2.edges,
      stableWorkload s.edge.src ≠ stableWorkload s.edge.dst := by
  intro s hs
  rcases mem_render_edges (mem_observe_edges hs) with hlive | ⟨key, row, hheld⟩
  · exact hapart s.edge hlive.accepted
  · rw [hheld.src.1, hheld.dst.1]
    exact hm key row hheld.stored

/-- The edges of a key are its occurrences among the projected keys. -/
theorem length_ownEdges :
    (c.ownEdges cfg k).length = (c.graph.edges.map (edgeKey cfg)).count k := by
  unfold ObserveCall.ownEdges
  rw [List.count, List.countP_map, List.countP_eq_length_filter]
  refine congrArg List.length (List.filter_congr fun e _ => ?_)
  rw [Function.comp_apply, beq_eq_decide]

theorem mem_projected_iff : k ∈ c.graph.edges.map (edgeKey cfg) ↔ Projects cfg c.graph.edges k :=
  List.mem_map

theorem OneEdgePerPair.confirmedOnce (h : OneEdgePerPair cfg m c) (hp : Projects cfg c.graph.edges k) :
    ConfirmedOnce cfg sha1 m c k := by
  have hlen : (c.ownEdges cfg k).length = 1 := by
    rw [length_ownEdges]
    exact List.count_eq_one_of_mem h.distinct (mem_projected_iff.mpr hp)
  obtain ⟨e, hown⟩ := List.length_eq_one_iff.mp hlen
  refine ⟨confirmRow cfg e c.ts (c.seededRow cfg k (m.edgeMemory.get? k)), ?_, ?_, ?_⟩
  · rw [observeStep_get?, rowAfter_of_projects hp, hown]; rfl
  · rw [confirmRow_hits]
    unfold ObserveCall.seededRow
    rw [hitsOf_seededRow]
  · rw [confirmRow_confidence]

/-! ## Necessary -/

/-- Rows are not deleted, and a projected key has one. -/
theorem row_after (sha1 : CaseKey → CaseId) (h : m.edgeMemory.get? k ≠ none ∨ Projects cfg c.graph.edges k) :
    ∃ r, (observeStep cfg sha1 m c).edgeMemory.get? k = some r := by
  rw [observeStep_get?]
  exact rowAfter_isSome (h.imp_right Or.inr)

theorem ProjectedOnce.oneEdgePerPair (h : ProjectedOnce cfg sha1 m c) : OneEdgePerPair cfg m c := by
  have hapart : ∀ e ∈ c.graph.edges, stableWorkload e.src ≠ stableWorkload e.dst := by
    intro e he
    have hp : Projects cfg c.graph.edges (edgeKey cfg e) := ⟨e, he, rfl⟩
    obtain ⟨r, hr⟩ := row_after (m := m) sha1 (Or.inr hp)
    exact h.created _ r hr
  refine ⟨?_, hapart, ?_⟩
  · intro k r hr
    have hrow : m.edgeMemory.get? k ≠ none := by rw [hr]; simp
    obtain ⟨r', hr'⟩ : ∃ r', (observeStep cfg sha1 m c).edgeMemory.get? k = some r' :=
      row_after sha1 (Or.inl hrow)
    exact h.created k r' hr'
  · rw [List.nodup_iff_count_le_one]
    intro k
    by_cases hk : k ∈ c.graph.edges.map (edgeKey cfg)
    · have hp := mem_projected_iff.mp hk
      obtain ⟨e, he, rfl⟩ := hp
      -- a row counts the edges that project to its key, and it went up by one
      obtain ⟨r, hr, hhits, -⟩ := h.once _ _ (hapart e he) ⟨e, he, rfl⟩
      rw [observeStep_get?] at hr
      have hcount := hits_after ⟨e, he, rfl⟩ hr
      rw [← length_ownEdges]
      exact le_of_eq (Nat.add_left_cancel (hcount.symm.trans hhits))
    · rw [List.count_eq_zero_of_not_mem hk]
      exact Nat.zero_le 1

/-- **A call projects its pod edges once, and keeps self rows out, exactly when they are one per pair of
    workloads already**, whatever the memory, the witness and the settings. -/
theorem projectedOnce_iff (cfg : MemoryConfig) (sha1 : CaseKey → CaseId) (m : Memory) (c : ObserveCall) :
    ProjectedOnce cfg sha1 m c ↔ OneEdgePerPair cfg m c := by
  constructor
  · exact fun h => h.oneEdgePerPair
  · intro h
    have hafter : NoSelfRow (observeStep cfg sha1 m c) := noSelfRow_after h.noSelfRow h.apart
    exact ⟨fun u v _ hp => h.confirmedOnce hp, hafter, rendered_apart hafter h.apart⟩

/-- **Run.** From an empty database, calls whose edges are one per pair of workloads never make a self row,
    and each of them is projected once. -/
theorem projectedOnce_run (cfg : MemoryConfig) (sha1 : CaseKey → CaseId) (calls : List ObserveCall)
    (hapart : ∀ c ∈ calls, ∀ e ∈ c.graph.edges, stableWorkload e.src ≠ stableWorkload e.dst)
    (hdistinct : ∀ c ∈ calls, (c.graph.edges.map (edgeKey cfg)).Nodup) {i : ℕ} {c : ObserveCall}
    (hc : calls[i]? = some c) : ProjectedOnce cfg sha1 (memoryAt cfg sha1 calls i) c := by
  have hself : NoSelfRow (memoryAt cfg sha1 calls i) := by
    refine stateAt_inv (I := NoSelfRow) ?_ ?_ i
    · intro k r h
      exact absurd h (by simp [Memory.empty])
    · intro m c hmem hm
      exact noSelfRow_after hm (hapart c hmem)
  have hmem := List.mem_of_getElem? hc
  exact (projectedOnce_iff cfg sha1 _ c).mpr ⟨hself, hapart c hmem, hdistinct c hmem⟩

/-! ### A rollout with two replicas -/

/-- The old and the new pod of one writer both stall the database. -/
def rolloutCall : ObserveCall where
  graph :=
    { findings := []
      edges :=
        [⟨"cooling-monitor-59584-aaa11", "timescaledb-0-y2", 9 / 10, 5, [.write, .pvc, .temporal]⟩,
          ⟨"cooling-monitor-7c9d4-bbb22", "timescaledb-0-y2", 8 / 10, 5, [.write, .pvc, .temporal]⟩]
      rootCauseRanking := []
      blastRadius := []
      pods := 3
      active := 1
      acceptedEdges := 2 }
  vectors := Dict.ofList
    [("cooling-monitor-59584-aaa11", [0]), ("cooling-monitor-7c9d4-bbb22", [0]), ("timescaledb-0-y2", [0])]
  witness := none
  ts := 10
  now := 10

/-- The row is confirmed twice by one call. -/
theorem rolloutCall_not_projectedOnce :
    ¬ ProjectedOnce MemoryConfig.default (fun _ => 0) Memory.empty rolloutCall := by
  intro h
  have hproj : Projects MemoryConfig.default rolloutCall.graph.edges
      ("cooling-monitor", "timescaledb", MemoryConfig.default.signal) := by
    unfold Projects
    decide +kernel
  obtain ⟨r, hr, hhits, -⟩ := h.once "cooling-monitor" "timescaledb" (by decide) hproj
  have htwo : hitsOf ((observeStep MemoryConfig.default (fun _ => 0) Memory.empty rolloutCall).edgeMemory.get?
      ("cooling-monitor", "timescaledb", MemoryConfig.default.signal)) = 2 := by
    decide +kernel
  rw [hr] at htwo
  have hone : r.hits = 1 := hhits
  exact absurd (hone.symm.trans htwo) (by decide)

end EdgeCausal
