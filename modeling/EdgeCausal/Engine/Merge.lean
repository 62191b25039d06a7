import EdgeCausal.Engine.State

/-!
# `Engine.Merge` — one served graph over the signals

The rendered graphs of the signals are united, every edge and finding tagged with its signal, and root
cause and blast radius are ranked again over the union.
-/

namespace EdgeCausal

open Lib

/-- What the merged graph reports about itself. -/
structure MergedMeta where
  signals : List Signal
  stats : Option Stats
  heldEdges : ℕ
  case : Option CaseTag
  signal : Option Signal
  pods : ℕ
  active : ℕ
  acceptedEdges : ℕ

structure MergedGraph where
  findings : List ServedFinding
  edges : List ServedEdge
  rootCauseRanking : List RankEntry
  blastRadius : List BlastEntry
  info : MergedMeta

/-- A string that counts as true, or nothing. -/
def truthy (s : Option String) : Option String := s.filter (· ≠ "")

def tagEdge (sig : Signal) (e : ServedEdge) : ServedEdge := { e with signal := some (e.signal.getD sig) }

def tagFinding (sig : Signal) (f : ServedFinding) : ServedFinding :=
  { f with signal := some (f.signal.getD sig) }

/-- The edges of every signal, in signal order. -/
def mergedEdges (perSignal : Dict Signal ServedGraph) : List ServedEdge :=
  perSignal.entries.flatMap fun sg => sg.2.edges.map (tagEdge sg.1)

def mergedFindings (perSignal : Dict Signal ServedGraph) : List ServedFinding :=
  perSignal.entries.flatMap fun sg => sg.2.findings.map (tagFinding sg.1)

/-- The causal graph of the served edges. -/
def servedGraph (edges : List ServedEdge) : CGraph := buildGraph (edges.map ServedEdge.edge)

/-- The findings that sit on the graph. -/
def onGraphSeeds (g : CGraph) (findings : List ServedFinding) : List Pod :=
  (findings.map fun f => f.finding.pod).filter (· ∈ g.nodes)

/-- The ranking over the union: none without a finding on the graph. -/
def mergedRanking (edges : List ServedEdge) (findings : List ServedFinding) : List RankEntry :=
  if edges = [] ∨ findings = [] then []
  else
    let g := servedGraph edges
    let seeds := onGraphSeeds g findings
    if seeds = [] then []
    else rankRootCauses g seeds (findingOnsets (findings.map ServedFinding.finding)) topCauses

def addStats (a : Option Stats) (b : Option Stats) : Option Stats :=
  match a, b with
  | some a, some b =>
      some ⟨a.edgeMemory + b.edgeMemory, a.visibleMemoryEdges + b.visibleMemoryEdges,
        a.cases + b.cases, a.families + b.families, a.openMistakes + b.openMistakes⟩
  | some a, none => some a
  | none, b => b

/-- The signal of the first edge leaving the top-ranked pod. -/
def activeSignal (edges : List ServedEdge) (ranking : List RankEntry) : Option Signal :=
  match ranking with
  | [] => none
  | top :: _ => ((edges.find? fun e => e.edge.src = top.pod).bind ServedEdge.signal)

/-- Union the rendered graphs of the signals into the served one. -/
def mergeGraphs (perSignal : Dict Signal ServedGraph) (primary : Option Signal) : MergedGraph :=
  let edges := mergedEdges perSignal
  let findings := mergedFindings perSignal
  let ranking := mergedRanking edges findings
  let activeSig := truthy (activeSignal edges ranking)
  let signals := sortOn id perSignal.keys
  { findings := findings
    edges := edges
    rootCauseRanking := ranking
    blastRadius := blastOfTop (servedGraph edges) ranking
    info :=
      { signals := signals
        stats := (perSignal.values.map ServedGraph.stats).foldl addStats none
        heldEdges := (perSignal.values.map ServedGraph.heldEdges).sum
        case := (activeSig.bind perSignal.get?).bind ServedGraph.case
        signal := (activeSig.or (truthy primary)).or signals.head?
        pods := (perSignal.values.map ServedGraph.pods).foldl max 0
        active := (findings.map fun f => f.finding.pod).dedup.length
        acceptedEdges := edges.length } }

end EdgeCausal
