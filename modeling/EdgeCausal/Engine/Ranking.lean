import EdgeCausal.Engine.Gate

/-!
# `Engine.Ranking` — root-cause ranking and blast radius

A node's score is how much of the symptom set it explains through the edges, with decay; it is halved
when the node has a predecessor, and a symptom without one explains itself. The blast radius is the
decayed forward walk from the winner.
-/

namespace EdgeCausal

open Lib

def decay : ℚ := 7 / 10
def cut : ℚ := 15 / 100
def upstreamPenalty : ℚ := 1 / 2

/-- What the causal graph keeps of an edge. -/
structure EdgeData where
  weight : ℚ
  lagS : ℕ
  evidence : List Evidence
deriving DecidableEq

/-- The causal graph: one weighted edge per ordered pair of pods. -/
abbrev CGraph := DiGraph Pod EdgeData

def addEdge (g : CGraph) (e : Edge) : CGraph := g.addEdge e.src e.dst ⟨|e.r|, e.lagS, e.evidence⟩

def buildGraph (edges : List Edge) : CGraph := edges.foldl addEdge ∅

/-! ## Forward impact -/

/-- Try to improve the impact of one successor; an improvement is queued. -/
def relax (w : ℚ) (s : Dict Pod ℚ × List (Pod × ℚ)) (out : Pod × EdgeData) :
    Dict Pod ℚ × List (Pod × ℚ) :=
  let nw := w * out.2.weight * decay
  if nw < cut ∨ nw ≤ (s.1.get? out.1).getD 0 then s
  else (s.1.set out.1 nw, s.2 ++ [(out.1, nw)])

/-- The worklist loop: pop the front, relax its out-edges, queue what improved. -/
def impactLoop (g : CGraph) : ℕ → List (Pod × ℚ) → Dict Pod ℚ → Dict Pod ℚ
  | 0, _, impact => impact
  | _ + 1, [], impact => impact
  | fuel + 1, (node, w) :: rest, impact =>
      let s := (g.outEdges node).foldl (relax w) (impact, rest)
      impactLoop g fuel s.2 s.1

/-- Every queued weight is at least `cut` after at most five decays, so with weights up to 1 no more
    entries are queued than there are walks of at most five edges. -/
def impactFuel (g : CGraph) : ℕ := (g.numberOfEdges + 1) ^ 6

/-- Decayed best impact on every node reachable from `root`. -/
def forwardImpact (g : CGraph) (root : Pod) : Dict Pod ℚ :=
  impactLoop g (impactFuel g) [(root, 1)] ∅

/-! ## Ranking -/

/-- The symptoms on the graph, or every node when there is none. -/
def seedSet (g : CGraph) (seeds : List Pod) : List Pod :=
  let onGraph := seeds.filter (· ∈ g.nodes)
  if onGraph = [] then g.nodes else onGraph

/-- How much of the symptom set `n` explains. -/
def explain (g : CGraph) (seeds : List Pod) (n : Pod) : ℚ :=
  let reach := (((forwardImpact g n).entries.filter (·.1 ∈ seeds)).map Prod.snd).sum
  let own := if n ∈ seeds ∧ g.inDegree n = 0 then reach + 1 else reach
  if 0 < g.inDegree n then own * upstreamPenalty else own

/-- The positive scores, in node order. -/
def scores (g : CGraph) (seeds : List Pod) : List (Pod × ℚ) :=
  (g.nodes.map fun n => (n, explain g seeds n)).filter (0 < ·.2)

/-- Sort key: higher score first, then earlier onset; an unknown onset is last. -/
def rankKey (onsetS : Dict Pod ℚ) (kv : Pod × ℚ) : ℚ ×ₗ WithTop ℚ :=
  toLex (-kv.2, match onsetS.get? kv.1 with
    | some t => (t : WithTop ℚ)
    | none => ⊤)

/-- The scored pods, best first. -/
def ranked (g : CGraph) (seeds : List Pod) (onsetS : Dict Pod ℚ) : List (Pod × ℚ) :=
  sortOn (rankKey onsetS) (scores g (seedSet g seeds))

/-- The `top` best explanations of the symptoms. -/
def rankRootCauses (g : CGraph) (seeds : List Pod) (onsetS : Dict Pod ℚ) (top : ℕ) : List RankEntry :=
  if g.numberOfEdges = 0 then []
  else
    let total := ((scores g (seedSet g seeds)).map Prod.snd).sum
    ((ranked g seeds onsetS).take top).map fun kv => ⟨kv.1, roundAt 3 (kv.2 / total), onsetS.get? kv.1⟩

/-- The number of causes every caller asks for. -/
def topCauses : ℕ := 3

/-! ## Blast radius -/

structure BlastState where
  seen : List Pod
  out : List BlastEntry
  frontier : List (Pod × ℚ × ℕ)

/-- Visit one successor of a node of weight `w` and ETA `eta`. -/
def blastStep (w : ℚ) (eta : ℕ) (s : BlastState) (out : Pod × EdgeData) : BlastState :=
  let nw := w * out.2.weight * decay
  if out.1 ∈ s.seen ∨ nw < cut then s
  else
    let neta := eta + out.2.lagS
    ⟨s.seen ++ [out.1], s.out ++ [⟨out.1, roundAt 3 nw, neta⟩], s.frontier ++ [(out.1, nw, neta)]⟩

def blastLoop (g : CGraph) : ℕ → BlastState → BlastState
  | 0, s => s
  | fuel + 1, s =>
      match s.frontier with
      | [] => s
      | (node, w, eta) :: rest =>
          blastLoop g fuel ((g.outEdges node).foldl (blastStep w eta) { s with frontier := rest })

/-- The decayed forward walk from `root`, each pod at its first visit; a node is queued once. -/
def blastRadius (g : CGraph) (root : Pod) : List BlastEntry :=
  if root ∈ g.nodes then
    sortOn (fun b => -b.impact)
      (blastLoop g (g.nodes.length + 1) ⟨[root], [], [(root, 1, 0)]⟩).out
  else []

/-- The blast radius of the top-ranked pod. -/
def blastOfTop (g : CGraph) (ranking : List RankEntry) : List BlastEntry :=
  match ranking with
  | [] => []
  | top :: _ => blastRadius g top.pod

end EdgeCausal
