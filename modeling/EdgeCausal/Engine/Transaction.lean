import EdgeCausal.Engine.State
import EdgeCausal.Storage.Transaction

/-!
# `Engine.Transaction` — a call of `observe`, statement by statement

`observe` writes the edge memory, the cases, their observations and the snapshot in one implicit transaction
that only its last line commits; the baselines are written and committed before it begins. A call can raise
between any two of its writes and at either commit: a failing statement, or an edge without a field it reads.
The service's loop catches the exception and goes on with the same connection; nothing rolls back.
-/

namespace EdgeCausal

open Lib

variable (cfg : MemoryConfig) (sha1 : CaseKey → CaseId)

/-! ## The writes of a call -/

abbrev Statement := Memory → Memory

/-- Learning the baselines, one vector at a time. -/
def baselineStatements (vectors : Dict Pod Series) (ts : ℚ) : List Statement :=
  vectors.entries.map fun pv m => { m with baselines := updateBaseline cfg ts m.baselines pv }

def onEdges (f : Dict EdgeKey EdgeRow → Dict EdgeKey EdgeRow) : Statement := fun m =>
  { m with edgeMemory := f m.edgeMemory }

/-- The shared-disk pairs a call seeds. -/
def seedPairs (w : Option Witness) : List (Pod × Pod) := (w.map Witness.sharedRelation).getD []

/-- Seeding, one pair at a time. -/
def seedStatements (present : List Workload) (w : Option Witness) (ts : ℚ) : List Statement :=
  (seedPairs w).map fun pair => onEdges fun rows => seedPair cfg present ts rows pair

/-- Confirming, one edge at a time. -/
def confirmStatements (edges : List Edge) (ts : ℚ) : List Statement :=
  edges.map fun e => onEdges fun rows => confirmEdge cfg ts rows e

/-- Decaying, one row at a time; the rows are read before the first is written. -/
def decayStatements (stale : List (EdgeKey × EdgeRow)) (ts : ℚ) : List Statement :=
  stale.map fun kr => onEdges fun rows => rows.set kr.1 (decayRow cfg ts kr.2)

/-- Promoting: the case, then its observation. -/
def promoteStatements (m : Memory) (graph : CausalGraph) (ts : ℚ) : List Statement :=
  match fingerprint cfg graph with
  | none => []
  | some fp =>
      let tag := routeCase cfg (sha1 fp) (nearestCase m.cases fp)
      [fun m => { m with cases := storeCase ts (leadTime graph) fp tag m.cases },
        fun m => { m with caseObservations := m.caseObservations ++
          [⟨ts, tag.caseId, fp.stressors.headD "", fp.victims, graph⟩] }]

def snapshotStatements (graph : CausalGraph) (ts : ℚ) : List Statement :=
  if graph.edges = [] then []
  else [fun m => { m with graphSnapshots := m.graphSnapshots ++ [(ts, graph)] }]

/-- The writes of a call on memory `m`, in order, once the baselines are committed. -/
def observeStatements (m : Memory) (graph : CausalGraph) (vectors : Dict Pod Series) (w : Option Witness)
    (ts : ℚ) : List Statement :=
  let present := podsPresent vectors
  let before := seedStatements cfg present w ts ++ confirmStatements cfg graph.edges ts
  let confirmed := before.foldl (fun m stmt => stmt m) m
  before ++ decayStatements cfg (staleRows cfg (graph.edges.map
    (edgeKey cfg)) present confirmed.edgeMemory) ts ++
    promoteStatements cfg sha1 m graph ts ++ snapshotStatements graph ts

/-! ## Calls on a connection -/

/-- The first commit of a call: the baselines, with whatever else the connection has pending. -/
def commitBaselines (conn : Conn Memory) (vectors : Dict Pod Series) (ts : ℚ) : Conn Memory :=
  (conn.exec fun m => updateBaselines cfg m vectors ts).commit

/-- A call that raises after `k` of its vectors are learned, or, with all of them, at the first commit. -/
def observeLearning (k : ℕ) (conn : Conn Memory) (vectors : Dict Pod Series) (ts : ℚ) : Conn Memory :=
  conn.execAll ((baselineStatements cfg vectors ts).take k)

/-- A call that runs to its end. -/
def observeOn (conn : Conn Memory) (graph : CausalGraph) (vectors : Dict Pod Series) (w : Option Witness)
    (ts : ℚ) : Conn Memory :=
  let conn := commitBaselines cfg conn vectors ts
  (conn.execAll (observeStatements cfg sha1 conn.view graph vectors w ts)).commit

/-- A call that raises after its first `k` writes, its baselines committed. -/
def observeRaising (k : ℕ) (conn : Conn Memory) (graph : CausalGraph) (vectors : Dict Pod Series)
    (w : Option Witness) (ts : ℚ) : Conn Memory :=
  let conn := commitBaselines cfg conn vectors ts
  conn.execAll ((observeStatements cfg sha1 conn.view graph vectors w ts).take k)

/-! ## Edges without a field -/

/-- An edge as a caller may hand it over. -/
structure RawEdge where
  src : Option Pod
  dst : Option Pod
  r : Option ℚ
  lagS : Option ℕ
  evidence : List Evidence

def RawEdge.ofEdge (e : Edge) : RawEdge := ⟨some e.src, some e.dst, some e.r, some e.lagS, e.evidence⟩

/-- The edge, a missing field replaced by a value that is never reached. -/
def RawEdge.fill (e : RawEdge) : Edge := ⟨e.src.getD "", e.dst.getD "", e.r.getD 0, e.lagS.getD 0, e.evidence⟩

/-- Where a list of raw edges makes the call raise, in writes done before: at once when an edge lacks an end
    (`seen` reads the ends of all edges first), else in the confirmation of the first edge that lacks `r` or
    `lag_s`. -/
def raisesAt (pairs : ℕ) (edges : List RawEdge) : Option ℕ :=
  if edges.any fun e => e.src.isNone ∨ e.dst.isNone then some 0
  else (edges.findIdx? fun e => e.r.isNone ∨ e.lagS.isNone).map (pairs + ·)

end EdgeCausal
