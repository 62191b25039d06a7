import EdgeCausal.Engine.Pipeline

/-!
# `Engine.State` — the persistent graph memory

`observe` feeds the output of one pass to the memory of a signal and returns the graph to serve. The
memory is a database of five tables: the edge memory (confidence, learned floor, visibility and label of
each workload pair), the case library with its observations, the graph snapshots, and the learned
baselines. A table is a dictionary from its primary key to the other columns, in row order: an update
keeps a row's place, `INSERT OR REPLACE` writes the row anew at the end.
-/

namespace EdgeCausal

open Lib

/-! ## Configuration and tables -/

structure MemoryConfig where
  signal : Signal
  alpha : ℚ
  decay : ℚ
  show' : ℚ
  hide : ℚ
  prior : ℚ
  floorFrac : ℚ
  tauMerge : ℚ
  tauFamily : ℚ
  baseAlpha : ℚ
  devK : ℚ
  madFloor : ℚ
  baseMinN : ℕ

/-- The defaults of the service for the disk signal. -/
def MemoryConfig.default : MemoryConfig where
  signal := "psi_io"
  alpha := 4 / 10
  decay := 1 / 10
  show' := 6 / 10
  hide := 25 / 100
  prior := 2 / 10
  floorFrac := 4 / 10
  tauMerge := 85 / 100
  tauFamily := 60 / 100
  baseAlpha := 5 / 100
  devK := 4
  madFloor := 1 / 100
  baseMinN := 12

/-- The label of a remembered edge. -/
inductive EdgeState where
  | steady | active | confirming | decaying | hidden
deriving DecidableEq, Repr

/-- Primary key of the edge memory: source workload, target workload, signal. -/
abbrev EdgeKey := Workload × Workload × Signal

/-- A row of the edge memory. -/
structure EdgeRow where
  confidence : ℚ
  r : ℚ
  lagS : ℕ
  evidence : List Evidence
  hits : ℕ
  visible : Bool
  state : EdgeState
  firstSeenTs : ℚ
  lastSeenTs : ℚ
  updatedTs : ℚ
  baseConf : ℚ
deriving DecidableEq

/-- A case id: the first 16 hex digits of the key's SHA-1. -/
abbrev CaseId := BitVec 64

/-- The fingerprint an id is hashed from. -/
structure CaseKey where
  stressors : List Workload
  victims : List Workload
  signal : Signal
  witnessKind : Option Evidence
  motif : List (Workload × Workload)
deriving DecidableEq

/-- A row of the case library. -/
structure CaseRow where
  key : CaseKey
  occurrences : ℕ
  firstSeenTs : ℚ
  lastSeenTs : ℚ
  typicalLeadTimeS : Option ℚ
  familyId : Option CaseId
deriving DecidableEq

structure CaseObservation where
  ts : ℚ
  caseId : CaseId
  root : Workload
  victims : List Workload
  graph : CausalGraph

/-- A row of the learned baselines. -/
structure Baseline where
  median : ℚ
  mad : ℚ
  n : ℕ
  updatedTs : ℚ
deriving DecidableEq

/-- The database of one signal. -/
structure Memory where
  edgeMemory : Dict EdgeKey EdgeRow
  cases : Dict CaseId CaseRow
  caseObservations : List CaseObservation
  graphSnapshots : List (ℚ × CausalGraph)
  baselines : Dict (Workload × Signal) Baseline
  openMistakes : ℕ

/-- An empty database. -/
def Memory.empty : Memory := ⟨∅, ∅, [], [], ∅, 0⟩

variable (cfg : MemoryConfig)

/-! ## Baselines -/

/-- The incident threshold of a baseline row. -/
def Baseline.threshold (b : Baseline) : ℚ := b.median + cfg.devK * max b.mad cfg.madFloor

/-- Blend a vector's median and MAD into a row, unless the workload is storming. -/
def learnBaseline (ts : ℚ) (vec : Series) (b : Baseline) : Baseline :=
  if cfg.baseMinN ≤ b.n ∧ percentile 90 vec > b.threshold cfg then b
  else ⟨mix cfg.baseAlpha b.median (Lib.median vec), mix cfg.baseAlpha b.mad (mad vec), b.n + 1, ts⟩

/-- One vector of `update_baselines`. -/
def updateBaseline (ts : ℚ) (rows : Dict (Workload × Signal) Baseline) (pv : Pod × Series) :
    Dict (Workload × Signal) Baseline :=
  if pv.2.length < 12 then rows
  else
    let key := (stableWorkload pv.1, cfg.signal)
    match rows.get? key with
    | none => rows.set key ⟨Lib.median pv.2, mad pv.2, 1, ts⟩
    | some b => rows.set key (learnBaseline cfg ts pv.2 b)

/-- Learn each workload's steady-state level. -/
def updateBaselines (m : Memory) (vectors : Dict Pod Series) (ts : ℚ) : Memory :=
  { m with baselines := vectors.entries.foldl (updateBaseline cfg ts) m.baselines }

/-- Incident threshold of a workload, once its baseline is mature. -/
def baselineThreshold (m : Memory) (workload : Workload) : Option ℚ :=
  match m.baselines.get? (workload, cfg.signal) with
  | none => none
  | some b => if b.n < cfg.baseMinN then none else some (b.threshold cfg)

/-! ## Edge memory -/

/-- The key a pod edge is remembered under. -/
def edgeKey (e : Edge) : EdgeKey := (stableWorkload e.src, stableWorkload e.dst, cfg.signal)

/-- The workloads that have a live pod. -/
def podsPresent (vectors : Dict Pod Series) : List Workload := vectors.keys.map stableWorkload

/-- The key a witnessed shared-disk pair is seeded under: its two workloads in name order, when they
    are different and both live. -/
def seedKey (present : List Workload) (pair : Pod × Pod) : Option EdgeKey :=
  let u := stableWorkload pair.1
  let v := stableWorkload pair.2
  let k := frozenPair u v
  if u ≠ v ∧ k.1 ∈ present ∧ k.2 ∈ present then some (k.1, k.2, cfg.signal) else none

/-- Seeding one row: insert it at the topology prior, or raise its floor to the prior. -/
def seedRow (ts : ℚ) : Option EdgeRow → EdgeRow
  | none => ⟨cfg.prior, 0, 0, [.pvc], 0, false, .steady, ts, ts, ts, cfg.prior⟩
  | some row => if row.baseConf < cfg.prior then { row with baseConf := cfg.prior } else row

def seedPair (present : List Workload) (ts : ℚ) (rows : Dict EdgeKey EdgeRow) (pair : Pod × Pod) :
    Dict EdgeKey EdgeRow :=
  match seedKey cfg present pair with
  | none => rows
  | some key => rows.set key (seedRow cfg ts (rows.get? key))

/-- Seed the steady-state backbone: every witnessed shared-disk pair carries at least the prior. -/
def seedStructural (w : Witness) (present : List Workload) (ts : ℚ) (rows : Dict EdgeKey EdgeRow) :
    Dict EdgeKey EdgeRow :=
  w.sharedRelation.foldl (seedPair cfg present ts) rows

/-- The row after one confirmation by `e`. -/
def confirmRow (e : Edge) (ts : ℚ) (row : Option EdgeRow) : EdgeRow :=
  let prevBase := (row.map EdgeRow.baseConf).getD 0
  let conf := match row with
    | some old => old.confidence + cfg.alpha * (1 - old.confidence)
    | none => cfg.alpha
  let hits := match row with
    | some old => old.hits + 1
    | none => 1
  let firstSeen := (row.map EdgeRow.firstSeenTs).getD ts
  let visible := (row.map EdgeRow.visible).getD false || decide (cfg.show' ≤ conf)
  { confidence := conf
    r := e.r
    lagS := e.lagS
    evidence := e.evidence
    hits := hits
    visible := visible
    state := if visible then .active else .confirming
    firstSeenTs := firstSeen
    lastSeenTs := ts
    updatedTs := ts
    baseConf := max prevBase (cfg.floorFrac * conf) }

def confirmEdge (ts : ℚ) (rows : Dict EdgeKey EdgeRow) (e : Edge) : Dict EdgeKey EdgeRow :=
  rows.reinsert (edgeKey cfg e) (confirmRow cfg e ts (rows.get? (edgeKey cfg e)))

/-- The row after one pass in which both workloads were live and the edge was absent. -/
def decayRow (ts : ℚ) (row : EdgeRow) : EdgeRow :=
  let base := row.baseConf
  let conf := max base (row.confidence * (1 - cfg.decay))
  let visible := row.visible && decide (cfg.hide ≤ conf)
  let atFloor := conf ≤ base + 1 / 1000000000 ∧ 0 < base
  { row with
    confidence := conf
    visible := visible
    state := if atFloor then .steady else if visible then .decaying else .hidden
    updatedTs := ts }

/-- Decay every row of the signal whose workloads are live and that was not seen. -/
def decayAbsentEdges (seen : List EdgeKey) (present : List Workload) (ts : ℚ)
    (rows : Dict EdgeKey EdgeRow) : Dict EdgeKey EdgeRow :=
  rows.mapVals fun key row =>
    if key.2.2 ≠ cfg.signal ∨ key ∈ seen then row
    else if key.1 ∉ present ∨ key.2.1 ∉ present then row
    else decayRow cfg ts row

/-- The rows a call decays: of this signal, live and not seen. -/
def staleRows (seen : List EdgeKey) (present : List Workload) (rows : Dict EdgeKey EdgeRow) :
    List (EdgeKey × EdgeRow) :=
  rows.entries.filter fun kr =>
    kr.1.2.2 = cfg.signal ∧ kr.1 ∉ seen ∧ kr.1.1 ∈ present ∧ kr.1.2.1 ∈ present

/-- The edge memory after one pass: seed, confirm, decay. -/
def updateEdges (edges : List Edge) (present : List Workload) (w : Option Witness) (ts : ℚ)
    (rows : Dict EdgeKey EdgeRow) : Dict EdgeKey EdgeRow :=
  let seeded := match w with
    | some w => seedStructural cfg w present ts rows
    | none => rows
  let confirmed := edges.foldl (confirmEdge cfg ts) seeded
  decayAbsentEdges cfg (edges.map (edgeKey cfg)) present ts confirmed

/-! ## Rendering -/

inductive EdgeSource where
  | live | memory
deriving DecidableEq, Repr

/-- What rendering adds to an edge from its memory row. -/
structure EdgeMark where
  source : EdgeSource
  confidence : ℚ
  renderWeight : ℚ
  state : EdgeState
  hits : ℕ
  baseConf : Option ℚ
  lastSeenS : Option ℚ
deriving DecidableEq

/-- A served edge; merging tags it with its signal. -/
structure ServedEdge where
  edge : Edge
  mark : Option EdgeMark
  signal : Option Signal
deriving DecidableEq

structure ServedFinding where
  finding : Finding
  signal : Option Signal
deriving DecidableEq

inductive Register where
  | recurrence | variant | novel
deriving DecidableEq, Repr

/-- How a pass was recognised. -/
structure CaseTag where
  caseId : CaseId
  family : CaseId
  register : Register
  sim : ℚ
deriving DecidableEq

structure Stats where
  edgeMemory : ℕ
  visibleMemoryEdges : ℕ
  cases : ℕ
  families : ℕ
  openMistakes : ℕ
deriving DecidableEq

/-- A rendered graph. -/
structure ServedGraph where
  findings : List ServedFinding
  edges : List ServedEdge
  rootCauseRanking : List RankEntry
  blastRadius : List BlastEntry
  pods : ℕ
  active : ℕ
  acceptedEdges : ℕ
  heldEdges : ℕ
  case : Option CaseTag
  stats : Option Stats

/-- Workload to current pod, the last pod listed winning. -/
def workloadPod (vectors : Dict Pod Series) : Dict Workload Pod :=
  Dict.ofList (vectors.keys.map fun p => (stableWorkload p, p))

/-- A live edge with the columns of its row. -/
def liveEdge (rows : Dict EdgeKey EdgeRow) (e : Edge) : ServedEdge where
  edge := e
  mark := (rows.get? (edgeKey cfg e)).map fun row =>
    let cf := roundAt 3 row.confidence
    ⟨.live, cf, cf, row.state, row.hits, none, none⟩
  signal := none

/-- The workload pairs joined by a live edge. -/
def livePairs (edges : List Edge) : List (Workload × Workload) :=
  edges.map fun e => frozenPair (stableWorkload e.src) (stableWorkload e.dst)

/-- The rows a render may hold: of this signal, visible or with a floor. -/
def holdable (key : EdgeKey) (row : EdgeRow) : Bool :=
  key.2.2 = cfg.signal ∧ (row.visible = true ∨ 0 < row.baseConf)

/-- One row of the strongest-wins loop; a pair already shown live is skipped. -/
def strongest (live : List (Workload × Workload))
    (byPair : Dict (Workload × Workload) (EdgeKey × EdgeRow)) (kr : EdgeKey × EdgeRow) :
    Dict (Workload × Workload) (EdgeKey × EdgeRow) :=
  let pair := frozenPair kr.1.1 kr.1.2.1
  if pair ∈ live then byPair
  else
    match byPair.get? pair with
    | none => byPair.set pair kr
    | some old => if old.2.confidence < kr.2.confidence then byPair.set pair kr else byPair

/-- The pair a row competes for. -/
def rivalPair (live : List (Workload × Workload)) (kr : EdgeKey × EdgeRow) : Option (Workload × Workload) :=
  if frozenPair kr.1.1 kr.1.2.1 ∈ live then none else some (frozenPair kr.1.1 kr.1.2.1)

/-- The rows to hold, one per unordered workload pair. -/
def heldRows (rows : Dict EdgeKey EdgeRow) (live : List (Workload × Workload)) :
    List (EdgeKey × EdgeRow) :=
  ((rows.entries.filter fun kr => holdable cfg kr.1 kr.2).foldl (strongest live) ∅).values

/-- A held edge against the current pods, when both workloads have one. -/
def heldEdge (wlPod : Dict Workload Pod) (now : ℚ) (kr : EdgeKey × EdgeRow) : Option ServedEdge :=
  match wlPod.get? kr.1.1, wlPod.get? kr.1.2.1 with
  | some src, some dst =>
      let cf := roundAt 3 kr.2.confidence
      some
        { edge := ⟨src, dst, roundAt 3 kr.2.r, kr.2.lagS, kr.2.evidence⟩
          mark := some ⟨.memory, cf, cf, kr.2.state, kr.2.hits, some (roundAt 3 kr.2.baseConf),
            some (roundAt 1 (now - kr.2.lastSeenTs))⟩
          signal := none }
  | _, _ => none

/-- The live edges, then the held backbone. -/
def renderEdges (rows : Dict EdgeKey EdgeRow) (edges : List Edge) (vectors : Dict Pod Series) (now : ℚ) :
    List ServedEdge × List ServedEdge :=
  (edges.map (liveEdge cfg rows),
    (heldRows cfg rows (livePairs edges)).filterMap (heldEdge (workloadPod vectors) now))

def findingOnsets (findings : List Finding) : Dict Pod ℚ :=
  Dict.ofList (findings.map fun f => (f.pod, f.onsetS))

/-- The graph to serve: re-ranked over live and held edges when there is a finding. -/
def render (rows : Dict EdgeKey EdgeRow) (graph : CausalGraph) (vectors : Dict Pod Series) (now : ℚ) :
    ServedGraph :=
  let (live, held) := renderEdges cfg rows graph.edges vectors now
  let edges := live ++ held
  let reranked := graph.findings ≠ [] ∧ edges ≠ []
  let g := buildGraph (edges.map ServedEdge.edge)
  let ranking := rankRootCauses g (graph.findings.map Finding.pod) (findingOnsets graph.findings)
    topCauses
  { findings := graph.findings.map fun f => ⟨f, none⟩
    edges := edges
    rootCauseRanking := if reranked then ranking else graph.rootCauseRanking
    blastRadius := if reranked then blastOfTop g ranking else graph.blastRadius
    pods := graph.pods
    active := graph.active
    acceptedEdges := graph.acceptedEdges
    heldEdges := held.length
    case := none
    stats := none }

/-! ## Cases -/

/-- Set overlap; two empty sets are identical. -/
def jaccard {α : Type} [DecidableEq α] (a b : Finset α) : ℚ :=
  if a = ∅ ∧ b = ∅ then 1 else ((a ∩ b).card : ℚ) / ((a ∪ b).card : ℚ)

/-- Structural similarity of two fingerprints, gated by signal and witness kind. -/
def caseSim (fp case : CaseKey) : ℚ :=
  if fp.signal ≠ case.signal ∨ fp.witnessKind ≠ case.witnessKind then 0
  else
    40 / 100 * jaccard fp.victims.toFinset case.victims.toFinset
      + 20 / 100 * jaccard fp.stressors.toFinset case.stressors.toFinset
      + 40 / 100 * jaccard fp.motif.toFinset case.motif.toFinset

/-- Evidence tags that mark a source-attributed edge. -/
def sourceEvidence : List Evidence := [.write]

/-- The evidence tokens that are not physical witnesses. -/
def nonPhysical : List Evidence := [.stat, .temporal, .write]

/-- The most cited physical witness; ties go to the alphabetically first token. -/
def dominantWitness (edges : List Edge) : Option Evidence :=
  let cited := (edges.flatMap Edge.evidence).filter (· ∉ nonPhysical)
  let counts : Dict Evidence ℕ :=
    cited.foldl (fun d ev => d.set ev ((d.get? ev).getD 0 + 1)) ∅
  ((sortOn (fun kv : Evidence × ℕ => (toLex (OrderDual.toDual kv.2, kv.1.token) : ℕᵒᵈ ×ₗ String))
    counts.entries).head?).map Prod.fst

/-- Mean ETA of the blast radius, else mean positive lag. -/
def leadTime (graph : CausalGraph) : Option ℚ :=
  let etas : Series := graph.blastRadius.map fun b => (b.etaS : ℚ)
  if etas ≠ [] then some (etas.sum / etas.length)
  else
    let lags : Series := (graph.edges.filter (0 < ·.lagS)).map fun e => (e.lagS : ℚ)
    if lags ≠ [] then some (lags.sum / lags.length) else none

/-- Workload names sorted, each once. -/
def sortedSet (l : List Workload) : List Workload := sortOn id l.dedup

/-- The workloads the incident's root takes down. -/
def caseVictims (graph : CausalGraph) (root : Workload) : List Workload :=
  let blast := sortedSet
    (((graph.blastRadius.filter (·.pod ≠ "")).map fun b => stableWorkload b.pod).filter (· ≠ root))
  if blast ≠ [] then blast
  else sortedSet ((graph.edges.map fun e => stableWorkload e.dst).filter (· ≠ root))

/-- The directed workload edges of the incident, sorted. -/
def caseMotif (graph : CausalGraph) : List (Workload × Workload) :=
  sortOn (fun p => (toLex p : Workload ×ₗ Workload))
    (graph.edges.map fun e => (stableWorkload e.src, stableWorkload e.dst))

/-- The fingerprint of a source-rooted verdict; `none` when the pass promotes no case. -/
def fingerprint (graph : CausalGraph) : Option CaseKey :=
  match graph.rootCauseRanking with
  | [] => none
  | top :: _ =>
      let root := stableWorkload top.pod
      if graph.edges.any (fun e => stableWorkload e.src = root ∧ e.evidence.any (· ∈ sourceEvidence))
        = false then none
      else
        let victims := caseVictims graph root
        if victims = [] then none
        else some ⟨[root], victims, cfg.signal, dominantWitness graph.edges, caseMotif graph⟩

/-- One stored case of the nearest-case loop; only a strictly better one takes over. -/
def nearer (fp : CaseKey) (best : Option (CaseId × CaseRow) × ℚ) (c : CaseId × CaseRow) :
    Option (CaseId × CaseRow) × ℚ :=
  if best.2 < caseSim fp c.2.key then (some c, caseSim fp c.2.key) else best

/-- The stored case nearest to a fingerprint, with its similarity. -/
def nearestCase (cases : Dict CaseId CaseRow) (fp : CaseKey) : Option (CaseId × CaseRow) × ℚ :=
  cases.entries.foldl (nearer fp) (none, 0)

/-- `best["family_id"] or best["id"]`. -/
def familyOf (c : CaseId × CaseRow) : CaseId := c.2.familyId.getD c.1

/-- Where a fingerprint goes: fold into the nearest case, join its family, or open a new one. -/
def routeCase (newId : CaseId) (nearest : Option (CaseId × CaseRow) × ℚ) : CaseTag :=
  match nearest with
  | (some best, sim) =>
      if cfg.tauMerge ≤ sim then ⟨best.1, familyOf best, .recurrence, roundAt 3 sim⟩
      else if cfg.tauFamily ≤ sim then ⟨newId, familyOf best, .variant, roundAt 3 sim⟩
      else ⟨newId, newId, .novel, roundAt 3 sim⟩
  | (none, sim) => ⟨newId, newId, .novel, roundAt 3 sim⟩

/-- A recurrence: count it, and average its lead time in when both are known. -/
def foldCase (ts : ℚ) (lead : Option ℚ) (row : CaseRow) : CaseRow :=
  let occurrences := row.occurrences + 1
  let newLead := match lead, row.typicalLeadTimeS with
    | some l, some old => some ((old * row.occurrences + l) / occurrences)
    | some l, none => some l
    | none, old => old
  { row with occurrences := occurrences, lastSeenTs := ts, typicalLeadTimeS := newLead }

/-- The case table after a tagged fingerprint; an insert on a taken id is ignored. -/
def storeCase (ts : ℚ) (lead : Option ℚ) (fp : CaseKey) (tag : CaseTag) (cases : Dict CaseId CaseRow) :
    Dict CaseId CaseRow :=
  match tag.register with
  | .recurrence =>
      match cases.get? tag.caseId with
      | some row => cases.set tag.caseId (foldCase ts lead row)
      | none => cases
  | _ =>
      match cases.get? tag.caseId with
      | some _ => cases
      | none => cases.set tag.caseId ⟨fp, 1, ts, ts, lead, some tag.family⟩

/-- Promote a case from a source-rooted verdict. `sha1` hashes a fingerprint to its id. -/
def promoteCase (sha1 : CaseKey → CaseId) (m : Memory) (graph : CausalGraph) (ts : ℚ) :
    Memory × Option CaseTag :=
  match fingerprint cfg graph with
  | none => (m, none)
  | some fp =>
      let tag := routeCase cfg (sha1 fp) (nearestCase m.cases fp)
      ({ m with
          cases := storeCase ts (leadTime graph) fp tag m.cases
          caseObservations := m.caseObservations ++
            [⟨ts, tag.caseId, fp.stressors.headD "", fp.victims, graph⟩] }, some tag)

/-! ## Observe -/

def Memory.stats (m : Memory) : Stats where
  edgeMemory := m.edgeMemory.entries.length
  visibleMemoryEdges := m.edgeMemory.values.countP EdgeRow.visible
  cases := m.cases.entries.length
  families := (m.cases.entries.map familyOf).dedup.length
  openMistakes := m.openMistakes

/-- The memory after one pass, with the case it was recognised as. -/
def remember (sha1 : CaseKey → CaseId) (m : Memory) (graph : CausalGraph) (vectors : Dict Pod Series)
    (w : Option Witness) (ts : ℚ) : Memory × Option CaseTag :=
  let m := updateBaselines cfg m vectors ts
  let m := { m with edgeMemory := updateEdges cfg graph.edges (podsPresent vectors) w ts m.edgeMemory }
  let (m, tag) := promoteCase cfg sha1 m graph ts
  let m := if graph.edges = [] then m
    else { m with graphSnapshots := m.graphSnapshots ++ [(ts, graph)] }
  (m, tag)

/-- Update the memory from the output of a pass and return the rendered graph. -/
def observe (sha1 : CaseKey → CaseId) (m : Memory) (graph : CausalGraph) (vectors : Dict Pod Series)
    (w : Option Witness) (ts now : ℚ) : Memory × ServedGraph :=
  let (m', tag) := remember cfg sha1 m graph vectors w ts
  (m', { render cfg m'.edgeMemory graph vectors now with case := tag, stats := some m'.stats })

end EdgeCausal
