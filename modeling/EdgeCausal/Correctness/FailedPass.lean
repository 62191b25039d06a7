import EdgeCausal.Correctness.EdgeMemory
import EdgeCausal.Engine.Transaction

/-!
# `Correctness.FailedPass` — a call that raises halfway

The statements of a call, run to the end and committed, are the call (`observeOn_clean`). A call that raises
leaves the writes it has done in the open transaction, and the commit at the beginning of the next call makes
them durable; nobody can tell whether a call has raised only if it had not changed a row yet
(`failedPass_untouched_iff`). Baselines learned are no row of these: they are another table.
-/

namespace EdgeCausal

open Lib Lib.Conn

/-! ## The statements make the call -/

section Refine
variable {cfg : MemoryConfig} {sha1 : CaseKey → CaseId} {m : Memory} {present : List Workload}
  {w : Option Witness} {ts : ℚ} {edges : List Edge} {rows : Dict EdgeKey EdgeRow}

/-- Run statements against a memory. -/
abbrev runStatements (stmts : List Statement) (m : Memory) : Memory := stmts.foldl (fun m stmt => stmt m) m

/-- Statements on the edge memory leave the rest alone. -/
theorem runStatements_onEdges {α : Type} (f : α → Dict EdgeKey EdgeRow → Dict EdgeKey EdgeRow) (l : List α)
    (m : Memory) : runStatements (l.map fun a => onEdges (f a)) m
      = { m with edgeMemory := l.foldl (fun rows a => f a rows) m.edgeMemory } := by
  unfold runStatements
  induction l generalizing m with
  | nil => rfl
  | cons a l ih => exact ih _

theorem runStatements_seed : runStatements (seedStatements cfg present w ts) m
    = { m with edgeMemory := match w with
        | some w => seedStructural cfg w present ts m.edgeMemory
        | none => m.edgeMemory } := by
  unfold seedStatements
  rw [runStatements_onEdges fun pair rows => seedPair cfg present ts rows pair]
  cases w with
  | none => rfl
  | some w => rfl

theorem runStatements_confirm : runStatements (confirmStatements cfg edges ts) m
    = { m with edgeMemory := edges.foldl (confirmEdge cfg ts) m.edgeMemory } := by
  unfold confirmStatements
  exact runStatements_onEdges (fun e rows => confirmEdge cfg ts rows e) edges m

/-- Decaying the stale rows one by one is decaying the table. -/
theorem setAll_staleRows (seen : List EdgeKey) :
    Dict.setAll (fun kr => decayRow cfg ts kr.2) (staleRows cfg seen present rows) rows
      = decayAbsentEdges cfg seen present ts rows := by
  unfold staleRows decayAbsentEdges
  rw [Dict.setAll_filter]
  congr 1
  funext key row
  by_cases h1 : key.2.2 = cfg.signal <;> by_cases h2 : key ∈ seen <;> by_cases h3 : key.1 ∈ present <;>
    by_cases h4 : key.2.1 ∈ present <;> simp [h1, h2, h3, h4]

theorem runStatements_decay (stale : List (EdgeKey × EdgeRow)) :
    runStatements (decayStatements cfg stale ts) m
      = { m with edgeMemory := Dict.setAll (fun kr => decayRow cfg ts kr.2) stale m.edgeMemory } := by
  unfold decayStatements
  exact runStatements_onEdges (fun kr rows => rows.set kr.1 (decayRow cfg ts kr.2)) stale m

/-- Statements on the baselines leave the rest alone. -/
theorem runStatements_baselines (vectors : Dict Pod Series) (k : ℕ) (m : Memory) :
    runStatements ((baselineStatements cfg vectors ts).take k) m
      = { m with baselines := (vectors.entries.take k).foldl (updateBaseline cfg ts) m.baselines } := by
  unfold baselineStatements runStatements
  rw [← List.map_take]
  induction vectors.entries.take k generalizing m with
  | nil => rfl
  | cons pv l ih => exact ih _

theorem runStatements_append (l l' : List Statement) (m : Memory) :
    runStatements (l ++ l') m = runStatements l' (runStatements l m) := List.foldl_append

/-- Promoting by its statements is promoting. -/
theorem runStatements_promote (graph : CausalGraph) (cases : Memory) (hcases : cases.cases = m.cases) :
    runStatements (promoteStatements cfg sha1 cases graph ts) m = (promoteCase cfg sha1 m graph ts).1 := by
  unfold promoteStatements promoteCase
  rw [hcases]
  cases fingerprint cfg graph with
  | none => rfl
  | some fp => rfl

theorem runStatements_snapshot (graph : CausalGraph) (m : Memory) :
    runStatements (snapshotStatements graph ts) m
      = if graph.edges = [] then m else { m with graphSnapshots := m.graphSnapshots ++ [(ts, graph)] } := by
  unfold snapshotStatements
  by_cases hedges : graph.edges = []
  · rw [if_pos hedges, if_pos hedges]
    rfl
  · rw [if_neg hedges, if_neg hedges]
    rfl

/-- **The statements of a call make the call.** -/
theorem runStatements_observe (m : Memory) (graph : CausalGraph) (vectors : Dict Pod Series)
    (w : Option Witness) (ts : ℚ) :
    runStatements (observeStatements cfg sha1 (updateBaselines cfg m vectors ts) graph vectors w ts)
      (updateBaselines cfg m vectors ts) = (remember cfg sha1 m graph vectors w ts).1 := by
  unfold observeStatements
  dsimp only
  rw [runStatements_append, runStatements_append, runStatements_append, runStatements_append]
  have hbefore : (seedStatements cfg (podsPresent vectors) w ts ++ confirmStatements cfg graph.edges ts).foldl
        (fun m stmt => stmt m) (updateBaselines cfg m vectors ts)
      = runStatements (confirmStatements cfg graph.edges ts)
          (runStatements (seedStatements cfg (podsPresent vectors) w ts) (updateBaselines cfg m vectors ts)) :=
    List.foldl_append
  rw [hbefore, runStatements_seed, runStatements_confirm, runStatements_decay]
  dsimp only
  rw [setAll_staleRows, runStatements_promote, runStatements_snapshot]
  · rfl
  · rfl

end Refine

/-! ## Attempts -/

/-- The tables a call writes in its transaction. -/
structure Tables where
  edgeMemory : Dict EdgeKey EdgeRow
  cases : Dict CaseId CaseRow
  caseObservations : List CaseObservation
  graphSnapshots : List (ℚ × CausalGraph)

def Memory.tables (m : Memory) : Tables := ⟨m.edgeMemory, m.cases, m.caseObservations, m.graphSnapshots⟩

/-- Where a call raises: after so many of its vectors are learned, none of them committed; after so many of its
    writes, its baselines committed; or while it renders, all committed. -/
inductive RaisePoint where
  | learning (done : ℕ)
  | writing (done : ℕ)
  | rendering

/-- A call of `observe`, and where it raises if it does. -/
structure Attempt where
  call : ObserveCall
  raises : Option RaisePoint

section Attempts
variable (cfg : MemoryConfig) (sha1 : CaseKey → CaseId)

/-- A call on a connection. -/
def attemptOn (conn : Conn Memory) (a : Attempt) : Conn Memory :=
  match a.raises with
  | some (.learning k) => observeLearning cfg k conn a.call.vectors a.call.ts
  | some (.writing k) => observeRaising cfg sha1 k conn a.call.graph a.call.vectors a.call.witness a.call.ts
  | _ => observeOn cfg sha1 conn a.call.graph a.call.vectors a.call.witness a.call.ts

/-- The writes of a call on a memory, its baselines committed. -/
abbrev ObserveCall.statements (c : ObserveCall) (m : Memory) : List Statement :=
  observeStatements cfg sha1 m c.graph c.vectors c.witness c.ts

/-- How many of `total` writes were done. -/
def RaisePoint.done (total : ℕ) : RaisePoint → ℕ
  | .learning _ => 0
  | .writing k => k
  | .rendering => total

/-- A failing call leaves the memory untouched: whatever calls follow on the connection, raising or not, what
    is durable of the four tables is what it would be without the failing call. -/
def LeavesUntouched (m : Memory) (c : ObserveCall) (p : RaisePoint) : Prop :=
  ∀ further : List Attempt,
    (further.foldl (attemptOn cfg sha1) (attemptOn cfg sha1 (clean m) ⟨c, some p⟩)).durable.tables
      = (further.foldl (attemptOn cfg sha1) (clean m)).durable.tables

variable {cfg sha1} {m m' : Memory} {conn : Conn Memory} {c : ObserveCall}

/-- Baselines learned, all of them or not, leave the four tables alone. -/
theorem observeLearning_alike (k : ℕ) (conn : Conn Memory) (vectors : Dict Pod Series) (ts : ℚ) :
    Alike Memory.tables (observeLearning cfg k conn vectors ts) conn where
  durable := congrArg Memory.tables (execAll_durable _)
  view := by
    unfold observeLearning
    rw [execAll_view]
    exact (congrArg Memory.tables (runStatements_baselines vectors k conn.view)).trans rfl

/-- A completed call on a clean connection is `observe`. -/
theorem observeOn_clean (conn : Conn Memory) (c : ObserveCall) :
    attemptOn cfg sha1 conn ⟨c, none⟩ = clean (observeStep cfg sha1 conn.view c) := by
  show ((commitBaselines cfg conn c.vectors c.ts).execAll _).commit = _
  rw [commit_eq_clean, execAll_view]
  exact congrArg clean (runStatements_observe conn.view c.graph c.vectors c.witness c.ts)

/-! ## Statements see the four tables only -/

/-- The statement reads and writes nothing but the four tables. -/
def OnTables (stmt : Statement) : Prop := ∀ m m' : Memory, m.tables = m'.tables →
    (stmt m).tables = (stmt m').tables

/-- A statement that is a function of the four tables. -/
theorem onTables_of {stmt : Statement} (f : Tables → Tables) (hf : ∀ m : Memory, (stmt m).tables = f m.tables) :
    OnTables stmt := by
  intro m m' h
  rw [hf m, hf m', h]

theorem onTables_onEdges (f : Dict EdgeKey EdgeRow → Dict EdgeKey EdgeRow) : OnTables (onEdges f) :=
  onTables_of (fun t => { t with edgeMemory := f t.edgeMemory }) fun _ => rfl

theorem onTables_promote (graph : CausalGraph) (ts : ℚ) :
    ∀ stmt ∈ promoteStatements cfg sha1 m graph ts, OnTables stmt := by
  intro stmt hstmt
  unfold promoteStatements at hstmt
  split at hstmt
  · exact absurd hstmt List.not_mem_nil
  · rename_i fp _
    dsimp only at hstmt
    rcases List.mem_cons.mp hstmt with rfl | hstmt
    · apply onTables_of fun t => { t with cases := storeCase ts (leadTime graph) fp _ t.cases }
      intro m
      rfl
    · obtain rfl := List.mem_singleton.mp hstmt
      apply onTables_of fun t => { t with caseObservations := t.caseObservations ++ _ }
      intro m
      rfl

theorem onTables_snapshot (graph : CausalGraph) (ts : ℚ) :
    ∀ stmt ∈ snapshotStatements graph ts, OnTables stmt := by
  intro stmt hstmt
  unfold snapshotStatements at hstmt
  split at hstmt
  · exact absurd hstmt List.not_mem_nil
  · obtain rfl := List.mem_singleton.mp hstmt
    apply onTables_of fun t => { t with graphSnapshots := t.graphSnapshots ++ _ }
    intro m
    rfl

theorem onTables_statements (m : Memory) : ∀ stmt ∈ c.statements cfg sha1 m, OnTables stmt := by
  intro stmt hstmt
  unfold ObserveCall.statements observeStatements at hstmt
  dsimp only at hstmt
  simp only [List.mem_append] at hstmt
  rcases hstmt with (((hstmt | hstmt) | hstmt) | hstmt) | hstmt
  · obtain ⟨pair, -, rfl⟩ := List.mem_map.mp hstmt
    exact onTables_onEdges _
  · obtain ⟨e, -, rfl⟩ := List.mem_map.mp hstmt
    exact onTables_onEdges _
  · obtain ⟨kr, -, rfl⟩ := List.mem_map.mp hstmt
    exact onTables_onEdges _
  · exact onTables_promote _ _ stmt hstmt
  · exact onTables_snapshot _ _ stmt hstmt

theorem runStatements_tables {stmts : List Statement} (hstmts : ∀ stmt ∈ stmts, OnTables stmt)
    (h : m.tables = m'.tables) : (runStatements stmts m).tables = (runStatements stmts m').tables := by
  induction stmts generalizing m m' with
  | nil => exact h
  | cons stmt stmts ih =>
      refine ih ?_ ?_
      · intro s hs
        exact hstmts s (List.mem_cons_of_mem stmt hs)
      · exact hstmts stmt List.mem_cons_self m m' h

/-- Memories with the same tables get the same writes. -/
theorem statements_congr (h : m.tables = m'.tables) : c.statements cfg sha1 m = c.statements cfg sha1 m' := by
  obtain ⟨he, hc, -, -⟩ := Tables.mk.inj h
  have hconfirmed : (runStatements (seedStatements cfg (podsPresent c.vectors) c.witness c.ts
        ++ confirmStatements cfg c.graph.edges c.ts) m).edgeMemory
      = (runStatements (seedStatements cfg (podsPresent c.vectors) c.witness c.ts
        ++ confirmStatements cfg c.graph.edges c.ts) m').edgeMemory := by
    rw [runStatements_append, runStatements_append, runStatements_seed, runStatements_seed,
      runStatements_confirm, runStatements_confirm]
    dsimp only
    rw [he]
  unfold ObserveCall.statements observeStatements
  dsimp only
  unfold runStatements at hconfirmed
  rw [hconfirmed]
  unfold promoteStatements
  rw [hc]

/-- **Attempts see the four tables only.** -/
theorem attemptOn_alike (c d : Conn Memory) (a : Attempt) (h : Alike Memory.tables c d) :
    Alike Memory.tables (attemptOn cfg sha1 c a) (attemptOn cfg sha1 d a) := by
  obtain ⟨call, raises⟩ := a
  have hbase : (updateBaselines cfg c.view call.vectors call.ts).tables
      = (updateBaselines cfg d.view call.vectors call.ts).tables := h.view
  have hrun : ∀ k, (runStatements ((call.statements cfg sha1
    (updateBaselines cfg c.view call.vectors call.ts)).take k)
        (updateBaselines cfg c.view call.vectors call.ts)).tables
      = (runStatements ((call.statements cfg sha1 (updateBaselines cfg d.view call.vectors call.ts)).take k)
        (updateBaselines cfg d.view call.vectors call.ts)).tables := by
    intro k
    rw [statements_congr hbase]
    refine runStatements_tables ?_ hbase
    intro stmt hstmt
    exact onTables_statements _ stmt (List.mem_of_mem_take hstmt)
  have hdone : Alike Memory.tables (attemptOn cfg sha1 c ⟨call, none⟩) (attemptOn cfg sha1 d ⟨call, none⟩) := by
    have hall := hrun (call.statements cfg sha1 (updateBaselines cfg c.view call.vectors call.ts)).length
    rw [List.take_length, statements_congr hbase, List.take_length] at hall
    rw [observeOn_clean, observeOn_clean]
    have hstep : ∀ v : Memory, observeStep cfg sha1 v call
        = runStatements (call.statements cfg sha1 (updateBaselines cfg v call.vectors call.ts))
          (updateBaselines cfg v call.vectors call.ts) := by
      intro v
      exact (runStatements_observe v call.graph call.vectors call.witness call.ts).symm
    rw [← statements_congr hbase, ← hstep, statements_congr hbase, ← hstep] at hall
    exact ⟨hall, hall⟩
  cases raises with
  | none => exact hdone
  | some p =>
      cases p with
      | rendering => exact hdone
      | learning k =>
          have hc : Alike Memory.tables (observeLearning cfg k c call.vectors call.ts) c := observeLearning_alike k c _ _
          have hd : Alike Memory.tables (observeLearning cfg k d call.vectors call.ts) d := observeLearning_alike k d _ _
          exact ⟨hc.durable.trans (h.durable.trans hd.durable.symm), hc.view.trans (h.view.trans hd.view.symm)⟩
      | writing k =>
          refine ⟨?_, ?_⟩
          · show ((commitBaselines cfg c call.vectors call.ts).execAll _).durable.tables
              = ((commitBaselines cfg d call.vectors call.ts).execAll _).durable.tables
            rw [execAll_durable, execAll_durable]
            exact hbase
          · show ((commitBaselines cfg c call.vectors call.ts).execAll _).view.tables
              = ((commitBaselines cfg d call.vectors call.ts).execAll _).view.tables
            rw [execAll_view, execAll_view]
            exact hrun k

end Attempts

/-! ## The edge memory after the first writes of a call -/

section Writes
variable (cfg : MemoryConfig) (sha1 : CaseKey → CaseId)

/-- The rows of a whole call once all its edges are confirmed. -/
def confirmedRows (c : ObserveCall) (rows : Dict EdgeKey EdgeRow) : Dict EdgeKey EdgeRow :=
  c.graph.edges.foldl (confirmEdge cfg c.ts) ((seedPairs c.witness).foldl (seedPair cfg c.present c.ts) rows)

/-- The rows that are then decayed. -/
def decayedRows (c : ObserveCall) (rows : Dict EdgeKey EdgeRow) : List (EdgeKey × EdgeRow) :=
  staleRows cfg (c.graph.edges.map (edgeKey cfg)) c.present (confirmedRows cfg c rows)

/-- The rows after the first `k` writes: pairs seeded, then edges confirmed, then rows decayed. -/
def edgesAfter (c : ObserveCall) (k : ℕ) (rows : Dict EdgeKey EdgeRow) : Dict EdgeKey EdgeRow :=
  let pairs := seedPairs c.witness
  let seeded := (pairs.take k).foldl (seedPair cfg c.present c.ts) rows
  let confirmed := (c.graph.edges.take (k - pairs.length)).foldl (confirmEdge cfg c.ts) seeded
  Dict.setAll (fun kr => decayRow cfg c.ts kr.2)
    ((decayedRows cfg c rows).take (k - (pairs.length + c.graph.edges.length))) confirmed

variable {cfg sha1} {m : Memory} {c : ObserveCall} {k : ℕ}

/-- The first `k` writes, by phase; what comes after the decay is promotion and snapshot. -/
theorem take_statements (cfg : MemoryConfig) (sha1 : CaseKey → CaseId) (c : ObserveCall) (m : Memory)
    (k : ℕ) : ∃ tail,
    (∀ stmt ∈ tail, stmt ∈ promoteStatements cfg sha1 m c.graph c.ts ∨ stmt ∈ snapshotStatements c.graph c.ts) ∧
    (c.statements cfg sha1 m).take k
      = (seedStatements cfg c.present c.witness c.ts).take k
        ++ (confirmStatements cfg c.graph.edges c.ts).take (k - (seedPairs c.witness).length)
        ++ (decayStatements cfg (decayedRows cfg c m.edgeMemory) c.ts).take
              (k - ((seedPairs c.witness).length + c.graph.edges.length))
        ++ tail := by
  have hconfirmed : (runStatements (seedStatements cfg c.present c.witness c.ts
      ++ confirmStatements cfg c.graph.edges c.ts) m).edgeMemory = confirmedRows cfg c m.edgeMemory := by
    rw [runStatements_append, runStatements_confirm]
    unfold seedStatements
    rw [runStatements_onEdges fun pair rows => seedPair cfg c.present c.ts rows pair]
    rfl
  have hstatements : c.statements cfg sha1 m
      = seedStatements cfg c.present c.witness c.ts ++ confirmStatements cfg c.graph.edges c.ts
        ++ decayStatements cfg (decayedRows cfg c m.edgeMemory) c.ts
        ++ (promoteStatements cfg sha1 m c.graph c.ts ++ snapshotStatements c.graph c.ts) := by
    unfold decayedRows
    rw [← hconfirmed, ← List.append_assoc]
    rfl
  have hseeds : (seedStatements cfg c.present c.witness c.ts).length = (seedPairs c.witness).length :=
    List.length_map _
  have hconfirms : (confirmStatements cfg c.graph.edges c.ts).length = c.graph.edges.length := List.length_map _
  have hsplit : ∀ front back : List Statement, (front ++ back).take k =
    front.take k ++ back.take (k - front.length) :=
    fun _ _ => List.take_append
  have htake := hsplit (seedStatements cfg c.present c.witness c.ts ++ confirmStatements cfg c.graph.edges c.ts
      ++ decayStatements cfg (decayedRows cfg c m.edgeMemory) c.ts)
    (promoteStatements cfg sha1 m c.graph c.ts ++ snapshotStatements c.graph c.ts)
  rw [← hstatements, List.take_append, List.take_append, List.length_append, hseeds, hconfirms] at htake
  refine ⟨_, ?_, htake⟩
  intro stmt hstmt
  exact List.mem_append.mp (List.mem_of_mem_take hstmt)

/-- Promotions and the snapshot do not touch the edge memory. -/
theorem tail_edgeMemory {stmt : Statement}
    (h : stmt ∈ promoteStatements cfg sha1 m c.graph c.ts ∨ stmt ∈ snapshotStatements c.graph c.ts)
    (m' : Memory) :
    (stmt m').edgeMemory = m'.edgeMemory := by
  rcases h with h | h
  · unfold promoteStatements at h
    split at h
    · exact absurd h List.not_mem_nil
    · rcases List.mem_cons.mp h with rfl | h
      · rfl
      · obtain rfl := List.mem_singleton.mp h
        rfl
  · unfold snapshotStatements at h
    split at h
    · exact absurd h List.not_mem_nil
    · obtain rfl := List.mem_singleton.mp h
      rfl

/-- Without edges nothing is promoted and no snapshot is taken. -/
theorem tail_eq_nil (cfg : MemoryConfig) (sha1 : CaseKey → CaseId) (m : Memory) (h : c.graph.edges = []) :
    promoteStatements cfg sha1 m c.graph c.ts = [] ∧ snapshotStatements c.graph c.ts = [] := by
  have hnone : fingerprint cfg c.graph = none := by
    unfold fingerprint
    rw [h]
    split
    · rfl
    · simp
  unfold promoteStatements snapshotStatements
  rw [hnone, if_pos h]
  exact ⟨rfl, rfl⟩

/-- The edge memory after the first writes of a call. -/
theorem edgeMemory_take (m : Memory) (k : ℕ) :
    (runStatements ((c.statements cfg sha1 m).take k) m).edgeMemory = edgesAfter cfg c k m.edgeMemory := by
  obtain ⟨tail, htail, htake⟩ := take_statements cfg sha1 c m k
  have hkeep : ∀ m' : Memory, (runStatements tail m').edgeMemory = m'.edgeMemory := by
    intro m'
    refine List.foldlRecOn (motive := fun m'' : Memory => m''.edgeMemory = m'.edgeMemory) tail _ rfl ?_
    intro m'' hm'' stmt hstmt
    rw [tail_edgeMemory (htail stmt hstmt), hm'']
  rw [htake, runStatements_append, hkeep, runStatements_append, runStatements_append]
  unfold seedStatements confirmStatements decayStatements
  rw [← List.map_take, ← List.map_take, ← List.map_take,
    runStatements_onEdges fun pair rows => seedPair cfg c.present c.ts rows pair,
    runStatements_onEdges fun e rows => confirmEdge cfg c.ts rows e,
    runStatements_onEdges fun (kr : EdgeKey × EdgeRow) rows => rows.set kr.1 (decayRow cfg c.ts kr.2)]
  rfl

/-! ## A row only grows -/

/-- Every row is still there, with at least its floor and its hits. -/
def Grows (rows rows' : Dict EdgeKey EdgeRow) : Prop :=
  ∀ key row, rows.get? key = some row →
    ∃ row', rows'.get? key = some row' ∧ row.baseConf ≤ row'.baseConf ∧ row.hits ≤ row'.hits

theorem Grows.refl (rows : Dict EdgeKey EdgeRow) : Grows rows rows :=
  fun _ row h => ⟨row, h, le_rfl, le_rfl⟩

theorem Grows.trans {rows rows' rows'' : Dict EdgeKey EdgeRow} (h : Grows rows rows')
    (h' : Grows rows' rows'') :
    Grows rows rows'' := by
  intro key row hrow
  obtain ⟨row', hrow', hbase, hhits⟩ := h key row hrow
  obtain ⟨row'', hrow'', hbase', hhits'⟩ := h' key row' hrow'
  exact ⟨row'', hrow'', hbase.trans hbase', hhits.trans hhits'⟩

/-- Writing one row that is at least the old one. -/
theorem grows_of_get? {rows rows' : Dict EdgeKey EdgeRow} {key : EdgeKey} {new : EdgeRow}
    (hget : ∀ k, rows'.get? k = if k = key then some new else rows.get? k)
    (hnew : ∀ old, rows.get? key = some old → old.baseConf ≤ new.baseConf ∧ old.hits ≤ new.hits) :
    Grows rows rows' := by
  intro k row hrow
  rw [hget]
  by_cases hk : k = key
  · subst hk
    exact ⟨new, if_pos rfl, hnew row hrow⟩
  · exact ⟨row, by rw [if_neg hk]; exact hrow, le_rfl, le_rfl⟩

theorem seedRow_grows (ts : ℚ) (old : EdgeRow) :
    old.baseConf ≤ (seedRow cfg ts (some old)).baseConf ∧ old.hits ≤ (seedRow cfg ts (some old)).hits := by
  unfold seedRow
  dsimp only
  split
  · rename_i hlt
    exact ⟨hlt.le, le_rfl⟩
  · exact ⟨le_rfl, le_rfl⟩

/-- A seeded row is at the prior or above. -/
theorem prior_le_seedRow (ts : ℚ) (row : Option EdgeRow) : cfg.prior ≤ (seedRow cfg ts row).baseConf := by
  cases row with
  | none => exact le_rfl
  | some old =>
      unfold seedRow
      dsimp only
      split
      · exact le_rfl
      · rename_i hle
        exact not_lt.mp hle

theorem seedPair_grows (present : List Workload) (ts : ℚ) (rows : Dict EdgeKey EdgeRow) (pair : Pod × Pod) :
    Grows rows (seedPair cfg present ts rows pair) := by
  unfold seedPair
  cases hkey : seedKey cfg present pair with
  | none => exact Grows.refl rows
  | some key =>
      refine grows_of_get? (Dict.get?_set rows key · _) ?_
      intro old hold
      rw [hold]
      exact seedRow_grows ts old

theorem confirmEdge_grows (ts : ℚ) (rows : Dict EdgeKey EdgeRow) (e : Edge) :
    Grows rows (confirmEdge cfg ts rows e) := by
  unfold confirmEdge
  refine grows_of_get? (Dict.get?_reinsert rows (edgeKey cfg e) · _) ?_
  intro old hold
  rw [hold]
  exact ⟨le_max_left _ _, Nat.le_succ old.hits⟩

theorem foldl_grows {α : Type} {f : Dict EdgeKey EdgeRow → α → Dict EdgeKey EdgeRow}
    (hf : ∀ rows a, Grows rows (f rows a)) (l : List α) (rows : Dict EdgeKey EdgeRow) :
    Grows rows (l.foldl f rows) := by
  refine List.foldlRecOn (motive := fun rows' => Grows rows rows') l f (Grows.refl rows) ?_
  intro rows' h a _
  exact h.trans (hf rows' a)

/-- Decay keeps floors and hits. -/
theorem decay_grows (ts : ℚ) (rows : Dict EdgeKey EdgeRow) {stale : List (EdgeKey × EdgeRow)}
    (hsub : stale.Sublist rows.entries) : Grows rows (Dict.setAll (fun kr =>
    decayRow cfg ts kr.2) stale rows) := by
  intro key row hrow
  have hnd : (stale.map Prod.fst).Nodup := (hsub.map Prod.fst).nodup rows.nodup
  rw [Dict.get?_setAll hnd]
  cases hfind : stale.find? fun kr => kr.1 = key with
  | none => exact ⟨row, hrow, le_rfl, le_rfl⟩
  | some kr =>
      have hmem : kr ∈ rows.entries := hsub.subset (List.mem_of_find?_eq_some hfind)
      have hkey : kr.1 = key := by simpa using List.find?_some hfind
      subst hkey
      have hkr : kr.2 = row := Option.some.inj ((Dict.get?_eq_some_iff.mpr hmem).symm.trans hrow)
      exact ⟨decayRow cfg ts kr.2, rfl, hkr ▸ le_rfl, hkr ▸ le_rfl⟩

theorem staleRows_sublist (seen : List EdgeKey) (present : List Workload) (rows : Dict EdgeKey EdgeRow) :
    (staleRows cfg seen present rows).Sublist rows.entries := List.filter_sublist

/-! ## Nothing changed yet -/

/-- Seeding the pair would change a row: it is missing, or its floor is below the prior. -/
def SeedDue (cfg : MemoryConfig) (rows : Dict EdgeKey EdgeRow) (present : List Workload)
    (pair : Pod × Pod) : Prop :=
  ∃ key, seedKey cfg present pair = some key ∧ ∀ row, rows.get? key = some row → row.baseConf < cfg.prior

theorem seedPair_of_not_due {rows : Dict EdgeKey EdgeRow} {present : List Workload} {pair : Pod × Pod}
    (h : ¬ SeedDue cfg rows present pair) (ts : ℚ) : seedPair cfg present ts rows pair = rows := by
  unfold seedPair
  cases hkey : seedKey cfg present pair with
  | none => rfl
  | some key =>
      dsimp only
      by_contra hne
      refine h ⟨key, hkey, ?_⟩
      intro row hrow
      by_contra hle
      refine hne (Dict.set_eq_self ?_)
      rw [hrow]
      exact congrArg some (if_neg hle).symm

/-- What is done before the call raises changes no row: none of the pairs seeded was due, no edge was
    confirmed, and every row decayed is what its decay makes of it already. -/
structure ChangesNothing (cfg : MemoryConfig) (rows : Dict EdgeKey EdgeRow) (c : ObserveCall)
    (k : ℕ) : Prop where
  seeds : ∀ pair ∈ (seedPairs c.witness).take k, ¬ SeedDue cfg rows c.present pair
  confirms : k ≤ (seedPairs c.witness).length ∨ c.graph.edges = []
  decays : ∀ kr ∈ (staleRows cfg [] c.present rows).take (k - (seedPairs c.witness).length),
    c.graph.edges = [] → decayRow cfg c.ts kr.2 = kr.2

theorem foldl_seedPair_of_not_due {rows : Dict EdgeKey EdgeRow} {present : List Workload}
    {pairs : List (Pod × Pod)}
    (h : ∀ pair ∈ pairs, ¬ SeedDue cfg rows present pair) (ts : ℚ) :
    pairs.foldl (seedPair cfg present ts) rows = rows := by
  induction pairs with
  | nil => rfl
  | cons pair pairs ih =>
      rw [List.foldl_cons, seedPair_of_not_due (h pair List.mem_cons_self)]
      exact ih fun p hp => h p (List.mem_cons_of_mem pair hp)

/-- Without edges a call that seeds all its pairs in vain decays the rows it found. -/
theorem decayedRows_of_no_edges {rows : Dict EdgeKey EdgeRow} (hedges : c.graph.edges = [])
    (hseeds : (seedPairs c.witness).foldl (seedPair cfg c.present c.ts) rows = rows) :
    decayedRows cfg c rows = staleRows cfg [] c.present rows := by
  unfold decayedRows confirmedRows
  rw [hedges, hseeds]
  rfl

/-- Past the pairs, all of them were seeded. -/
theorem seeds_done {rows : Dict EdgeKey EdgeRow} (hk : (seedPairs c.witness).length < k)
    (hseeds : ∀ pair ∈ (seedPairs c.witness).take k, ¬ SeedDue cfg rows c.present pair) :
    (seedPairs c.witness).foldl (seedPair cfg c.present c.ts) rows = rows := by
  rw [List.take_of_length_le hk.le] at hseeds
  exact foldl_seedPair_of_not_due hseeds c.ts

theorem ChangesNothing.edgesAfter {rows : Dict EdgeKey EdgeRow} (h : ChangesNothing cfg rows c k) :
    edgesAfter cfg c k rows = rows := by
  unfold EdgeCausal.edgesAfter
  dsimp only
  rw [foldl_seedPair_of_not_due h.seeds c.ts]
  by_cases hk : k ≤ (seedPairs c.witness).length
  · have hzero : k - (seedPairs c.witness).length = 0 := Nat.sub_eq_zero_of_le hk
    have hzero' : k - ((seedPairs c.witness).length + c.graph.edges.length) = 0 := by omega
    rw [hzero, hzero', List.take_zero, List.take_zero]
    rfl
  · have hedges : c.graph.edges = [] := h.confirms.resolve_left hk
    rw [decayedRows_of_no_edges hedges (seeds_done (not_le.mp hk) h.seeds), hedges, List.take_nil,
      List.length_nil,
      Nat.add_zero]
    refine Dict.setAll_eq_self ?_
    intro kr hkr
    have hmem : kr ∈ rows.entries := (staleRows_sublist [] c.present rows).subset (List.mem_of_mem_take hkr)
    show rows.get? kr.1 = some (decayRow cfg c.ts kr.2)
    rw [h.decays kr hkr hedges]
    exact Dict.get?_eq_some_iff.mpr hmem

/-- The decay of a call, as far as it got, keeps floors and hits. -/
theorem edgesAfter_grows (cfg : MemoryConfig) (c : ObserveCall) (k : ℕ) (rows : Dict EdgeKey EdgeRow) :
    Grows ((c.graph.edges.take (k - (seedPairs c.witness).length)).foldl (confirmEdge cfg c.ts)
      (((seedPairs c.witness).take k).foldl (seedPair cfg c.present c.ts) rows)) (edgesAfter cfg c k rows) := by
  unfold edgesAfter
  dsimp only
  by_cases hk : k ≤ (seedPairs c.witness).length + c.graph.edges.length
  · rw [Nat.sub_eq_zero_of_le hk, List.take_zero]
    exact Grows.refl _
  · -- the decay has begun, so every pair was seeded and every edge confirmed
    have hseeds : (seedPairs c.witness).take k = seedPairs c.witness := List.take_of_length_le (by omega)
    have hconfirms : c.graph.edges.take (k - (seedPairs c.witness).length) = c.graph.edges :=
      List.take_of_length_le (by omega)
    rw [hseeds, hconfirms]
    apply decay_grows
    exact (List.take_sublist _ _).trans (staleRows_sublist _ _ _)

/-- After a pair was seeded its row is at the prior or above. -/
theorem seeded_prior {pairs : List (Pod × Pod)} {pair : Pod × Pod} (hpair : pair ∈ pairs) {key : EdgeKey}
    {present : List Workload} (hkey : seedKey cfg present pair = some key) (ts : ℚ)
      (rows : Dict EdgeKey EdgeRow) :
    ∃ row, (pairs.foldl (seedPair cfg present ts) rows).get? key = some row ∧ cfg.prior ≤ row.baseConf := by
  obtain ⟨before, after, rfl⟩ := List.append_of_mem hpair
  rw [List.foldl_append, List.foldl_cons]
  have hwritten : ∀ d : Dict EdgeKey EdgeRow,
      (seedPair cfg present ts d pair).get? key = some (seedRow cfg ts (d.get? key)) := by
    intro d
    unfold seedPair
    rw [hkey]
    dsimp only
    rw [Dict.get?_set, if_pos rfl]
  obtain ⟨row, hrow, hbase, -⟩ := foldl_grows (seedPair_grows present ts) after _ key _ (hwritten _)
  exact ⟨row, hrow, (prior_le_seedRow ts _).trans hbase⟩

/-- In a call that changes no row no seeded pair was due. -/
theorem not_seedDue_of_edgesAfter {rows : Dict EdgeKey EdgeRow} (h : edgesAfter cfg c k rows = rows) :
    ∀ pair ∈ (seedPairs c.witness).take k, ¬ SeedDue cfg rows c.present pair := by
  have hgrows := edgesAfter_grows cfg c k rows
  rw [h] at hgrows
  rintro pair hpair ⟨key, hkey, hdue⟩
  obtain ⟨row, hrow, hprior⟩ := seeded_prior hpair hkey c.ts rows
  obtain ⟨row₁, hrow₁, hbase₁, -⟩ := foldl_grows (confirmEdge_grows c.ts)
    (c.graph.edges.take (k - (seedPairs c.witness).length)) _ key row hrow
  obtain ⟨row₂, hrow₂, hbase₂, -⟩ := hgrows key row₁ hrow₁
  have hlow := hdue row₂ hrow₂
  linarith

/-- Nor was an edge confirmed: its row would have one more hit. -/
theorem no_edge_of_edgesAfter {rows : Dict EdgeKey EdgeRow} (h : edgesAfter cfg c k rows = rows)
    (hk : (seedPairs c.witness).length < k) : c.graph.edges = [] := by
  have hseeds := not_seedDue_of_edgesAfter h
  have hgrows := edgesAfter_grows cfg c k rows
  rw [h] at hgrows
  rw [List.take_of_length_le hk.le] at hseeds
  by_contra hedges
  obtain ⟨e, es, hcons⟩ := List.exists_cons_of_ne_nil hedges
  obtain ⟨n, hn⟩ : ∃ n, k - (seedPairs c.witness).length = n + 1 :=
    ⟨k - (seedPairs c.witness).length - 1, by omega⟩
  rw [hn, hcons, List.take_succ_cons, List.foldl_cons, List.take_of_length_le hk.le,
    foldl_seedPair_of_not_due hseeds] at hgrows
  have hwritten : (confirmEdge cfg c.ts rows e).get? (edgeKey cfg e)
      = some (confirmRow cfg e c.ts (rows.get? (edgeKey cfg e))) := by
    unfold confirmEdge
    rw [Dict.get?_reinsert, if_pos rfl]
  obtain ⟨row₁, hrow₁, -, hhits₁⟩ := foldl_grows (confirmEdge_grows c.ts) (es.take n) _ _ _ hwritten
  obtain ⟨row₂, hrow₂, -, hhits₂⟩ := hgrows _ _ hrow₁
  rw [hrow₂] at hhits₁
  have hone : (confirmRow cfg e c.ts (some row₂)).hits = row₂.hits + 1 := rfl
  omega

/-- A decay that changes no row found each of its rows decayed already. -/
theorem decayed_of_edgesAfter {rows : Dict EdgeKey EdgeRow} (h : edgesAfter cfg c k rows = rows)
    (hedges : c.graph.edges = []) {kr : EdgeKey × EdgeRow}
    (hkr : kr ∈ (staleRows cfg [] c.present rows).take (k - (seedPairs c.witness).length)) :
    decayRow cfg c.ts kr.2 = kr.2 := by
  have hseeds := not_seedDue_of_edgesAfter h
  have hk : (seedPairs c.witness).length < k := by
    by_contra hle
    rw [Nat.sub_eq_zero_of_le (not_lt.mp hle), List.take_zero] at hkr
    exact absurd hkr List.not_mem_nil
  unfold edgesAfter at h
  dsimp only at h
  rw [decayedRows_of_no_edges hedges (seeds_done hk hseeds), hedges, List.take_nil, List.length_nil,
    Nat.add_zero, foldl_seedPair_of_not_due hseeds, List.foldl_nil] at h
  have hsub : ((staleRows cfg [] c.present rows).take
    (k - (seedPairs c.witness).length)).Sublist rows.entries :=
    (List.take_sublist _ _).trans (staleRows_sublist [] c.present rows)
  have hnd : (((staleRows cfg [] c.present rows).take (k - (seedPairs c.witness).length)).map Prod.fst).Nodup :=
    (hsub.map Prod.fst).nodup rows.nodup
  have hmem : rows.get? kr.1 = some kr.2 := Dict.get?_eq_some_iff.mpr (hsub.subset hkr)
  have hget := Dict.get?_setAll (f := fun kr : EdgeKey × EdgeRow => decayRow cfg c.ts kr.2) hnd rows kr.1
  rw [h, hmem] at hget
  cases hfind : ((staleRows cfg [] c.present rows).take (k - (seedPairs c.witness).length)).find?
      fun e => e.1 = kr.1 with
  | none => exact absurd (List.find?_eq_none.mp hfind kr hkr) (by simp)
  | some kr' =>
      rw [hfind] at hget
      have hkey : kr'.1 = kr.1 := by simpa using List.find?_some hfind
      have hmem' := Dict.get?_eq_some_iff.mpr (hsub.subset (List.mem_of_find?_eq_some hfind))
      have hrow : kr'.2 = kr.2 := Option.some.inj ((hkey ▸ hmem').symm.trans hmem)
      have hdecay := Option.some.inj hget
      rw [hrow] at hdecay
      exact hdecay.symm

/-- **A call that changes no row has not got far.** -/
theorem ChangesNothing.of_edgesAfter {rows : Dict EdgeKey EdgeRow}
    (h : EdgeCausal.edgesAfter cfg c k rows = rows) :
    ChangesNothing cfg rows c k := by
  refine ⟨not_seedDue_of_edgesAfter h, ?_, fun kr hkr hedges => decayed_of_edgesAfter h hedges hkr⟩
  rcases le_or_gt k (seedPairs c.witness).length with hk | hk
  · exact Or.inl hk
  · exact Or.inr (no_edge_of_edgesAfter h hk)

/-- The statement writes the edge memory only. -/
def OnEdgeMemory (stmt : Statement) : Prop := ∀ m : Memory, stmt m =
    { m with edgeMemory := (stmt m).edgeMemory }

theorem runStatements_onEdgeMemory {stmts : List Statement} (h : ∀ stmt ∈ stmts, OnEdgeMemory stmt)
    (m : Memory) :
    runStatements stmts m = { m with edgeMemory := (runStatements stmts m).edgeMemory } := by
  refine List.foldlRecOn (motive := fun m' : Memory =>
    m' = { m with edgeMemory := m'.edgeMemory }) stmts _ rfl ?_
  intro m' hm' stmt hstmt
  rw [h stmt hstmt, hm']

/-- Before the first promotion only the edge memory is written. -/
theorem take_onEdgeMemory (hk : k ≤ (seedPairs c.witness).length ∨ c.graph.edges = []) :
    ∀ stmt ∈ (c.statements cfg sha1 m).take k, OnEdgeMemory stmt := by
  have hone : ∀ f : Dict EdgeKey EdgeRow → Dict EdgeKey EdgeRow, OnEdgeMemory (onEdges f) := fun _ _ => rfl
  have hseed : ∀ stmt ∈ seedStatements cfg c.present c.witness c.ts, OnEdgeMemory stmt := by
    intro stmt hstmt
    obtain ⟨pair, -, rfl⟩ := List.mem_map.mp hstmt
    exact hone _
  intro stmt hstmt
  rcases hk with hk | hedges
  · -- only pairs were seeded
    unfold ObserveCall.statements observeStatements at hstmt
    dsimp only at hstmt
    rw [List.append_assoc, List.append_assoc, List.append_assoc, List.take_append_of_le_length] at hstmt
    · exact hseed stmt (List.mem_of_mem_take hstmt)
    · unfold seedStatements
      rw [List.length_map]
      exact hk
  · obtain ⟨tail, htail, htake⟩ := take_statements cfg sha1 c m k
    obtain ⟨hpromote, hsnapshot⟩ := tail_eq_nil cfg sha1 m hedges
    rw [htake] at hstmt
    simp only [List.mem_append] at hstmt
    rcases hstmt with ((hstmt | hstmt) | hstmt) | hstmt
    · exact hseed stmt (List.mem_of_mem_take hstmt)
    · obtain ⟨e, -, rfl⟩ := List.mem_map.mp (List.mem_of_mem_take hstmt)
      exact hone _
    · obtain ⟨kr, -, rfl⟩ := List.mem_map.mp (List.mem_of_mem_take hstmt)
      exact hone _
    · rcases htail stmt hstmt with hmem | hmem
      · rw [hpromote] at hmem
        exact absurd hmem List.not_mem_nil
      · rw [hsnapshot] at hmem
        exact absurd hmem List.not_mem_nil

/-- The four tables after a call that changes nothing. -/
theorem ChangesNothing.tables (sha1 : CaseKey → CaseId) (h : ChangesNothing cfg m.edgeMemory c k) :
    (runStatements ((c.statements cfg sha1 m).take k) m).tables = m.tables := by
  rw [runStatements_onEdgeMemory (take_onEdgeMemory h.confirms) m, edgeMemory_take, h.edgesAfter]

/-- A call with no live pod, no witness and no edge. -/
def idleCall : ObserveCall := ⟨⟨[], [], [], [], 0, 0, 0⟩, ∅, none, 0, 0⟩

theorem idleCall_changesNothing (cfg : MemoryConfig) (rows : Dict EdgeKey EdgeRow) (k : ℕ) :
    ChangesNothing cfg rows idleCall k := by
  refine ⟨?_, Or.inr rfl, ?_⟩
  · intro pair hpair
    exact absurd (List.mem_of_mem_take hpair) List.not_mem_nil
  · intro kr hkr _
    have hmem := List.mem_of_mem_take hkr
    unfold staleRows at hmem
    rw [List.mem_filter] at hmem
    exact absurd hmem.2 (by simp [idleCall, ObserveCall.present, podsPresent])

theorem observeStep_eq_statements (m : Memory) (c : ObserveCall) :
    observeStep cfg sha1 m c = runStatements (c.statements cfg sha1 (updateBaselines cfg m c.vectors c.ts))
      (updateBaselines cfg m c.vectors c.ts) :=
  (runStatements_observe m c.graph c.vectors c.witness c.ts).symm

theorem idleCall_tables (m : Memory) : (observeStep cfg sha1 m idleCall).tables = m.tables := by
  have hnothing := idleCall_changesNothing cfg m.edgeMemory
    (idleCall.statements cfg sha1 (updateBaselines cfg m idleCall.vectors idleCall.ts)).length
  have htables := ChangesNothing.tables sha1 (m := updateBaselines cfg m idleCall.vectors idleCall.ts) hnothing
  rw [List.take_length, ← observeStep_eq_statements] at htables
  exact htables

/-! ## The failing call -/

/-- The number of writes a call makes on a memory. -/
def ObserveCall.writes (cfg : MemoryConfig) (sha1 : CaseKey → CaseId) (m : Memory) (c : ObserveCall) : ℕ :=
  (c.statements cfg sha1 (updateBaselines cfg m c.vectors c.ts)).length

/-- The four tables as the connection sees them after a failing call. -/
theorem attemptOn_view (m : Memory) (c : ObserveCall) (p : RaisePoint) :
    (attemptOn cfg sha1 (clean m) ⟨c, some p⟩).view.tables
      = (runStatements ((c.statements cfg sha1 (updateBaselines cfg m c.vectors c.ts)).take
          (p.done (c.writes cfg sha1 m))) (updateBaselines cfg m c.vectors c.ts)).tables := by
  cases p with
  | learning k => exact (observeLearning_alike k (clean m) c.vectors c.ts).view
  | writing k =>
      show ((commitBaselines cfg (clean m) c.vectors c.ts).execAll _).view.tables = _
      rw [execAll_view]
      rfl
  | rendering =>
      show (attemptOn cfg sha1 (clean m) ⟨c, none⟩).view.tables = _
      rw [observeOn_clean, clean_view, clean_view, observeStep_eq_statements]
      unfold RaisePoint.done ObserveCall.writes
      dsimp only
      rw [List.take_length]

/-- What is durable after a failing call: the tables as before, or what the connection sees. -/
theorem attemptOn_durable (m : Memory) (c : ObserveCall) (p : RaisePoint) :
    (attemptOn cfg sha1 (clean m) ⟨c, some p⟩).durable.tables = m.tables ∨
      (attemptOn cfg sha1 (clean m) ⟨c, some p⟩).durable = (attemptOn cfg sha1 (clean m) ⟨c, some p⟩).view := by
  cases p with
  | learning k => exact Or.inl (observeLearning_alike k (clean m) c.vectors c.ts).durable
  | writing k =>
      left
      show ((commitBaselines cfg (clean m) c.vectors c.ts).execAll _).durable.tables = _
      rw [execAll_durable]
      rfl
  | rendering =>
      right
      show (attemptOn cfg sha1 (clean m) ⟨c, none⟩).durable = (attemptOn cfg sha1 (clean m) ⟨c, none⟩).view
      rw [observeOn_clean]
      rfl

end Writes

/-- **A failing call is visible as soon as it has changed a row.** For every memory, every call and every
    point at which it raises: the four tables are, after whatever follows, what they would be without the call
    if and only if the call raised before it changed anything. -/
theorem failedPass_untouched_iff (cfg : MemoryConfig) (sha1 : CaseKey → CaseId) (m : Memory) (c : ObserveCall)
    (p : RaisePoint) :
    LeavesUntouched cfg sha1 m c p ↔
      ChangesNothing cfg m.edgeMemory c (p.done (c.writes cfg sha1 m)) := by
  constructor
  · intro h
    -- the commit of an idle call publishes what the failing call left behind
    have hidle := h [⟨idleCall, none⟩]
    rw [List.foldl_cons, List.foldl_nil, List.foldl_cons, List.foldl_nil, observeOn_clean, observeOn_clean,
      clean_durable, clean_durable, idleCall_tables, idleCall_tables, clean_view, attemptOn_view] at hidle
    have hedges : (runStatements ((c.statements cfg sha1 (updateBaselines cfg m c.vectors c.ts)).take
        (p.done (c.writes cfg sha1 m))) (updateBaselines cfg m c.vectors c.ts)).edgeMemory = m.edgeMemory :=
      congrArg Tables.edgeMemory hidle
    rw [edgeMemory_take] at hedges
    exact ChangesNothing.of_edgesAfter hedges
  · intro h further
    have hview : (attemptOn cfg sha1 (clean m) ⟨c, some p⟩).view.tables = m.tables := by
      rw [attemptOn_view]
      exact ChangesNothing.tables sha1 (m := updateBaselines cfg m c.vectors c.ts) h
    have halike : Alike Memory.tables (attemptOn cfg sha1 (clean m) ⟨c, some p⟩) (clean m) := by
      refine ⟨?_, hview⟩
      rcases attemptOn_durable m c p with hdur | hdur
      · exact hdur
      · rw [hdur]
        exact hview
    exact (Alike.foldl attemptOn_alike further halike).durable

/-! ### An edge without a correlation -/

/-- The archiver's storm, and an edge on to the bridge that lacks `r`. -/
def brokenEdges : List RawEdge :=
  [RawEdge.ofEdge stormEdge, ⟨some "timescaledb-0-y2", some "dcim-bridge-5f-z3", none, some 5, [.pvc]⟩]

/-- The call on these edges; the pair of the archiver and the database is seeded first. -/
def brokenCall : ObserveCall := stormCall (brokenEdges.map RawEdge.fill) 10

/-- The call raises at the edge without `r`, and the next call, on an idle floor, commits the row that was
    seeded and confirmed before. -/
theorem brokenCall_left_behind :
    raisesAt (seedPairs brokenCall.witness).length brokenEdges = some 2 ∧
      ¬ LeavesUntouched MemoryConfig.default (fun _ => 0) Memory.empty brokenCall (.writing 2) := by
  refine ⟨by decide +kernel, ?_⟩
  intro h
  have hkeys := congrArg (fun t : Tables => t.edgeMemory.keys) (h [⟨idleCall, none⟩])
  exact absurd hkeys (by decide +kernel)

end EdgeCausal
