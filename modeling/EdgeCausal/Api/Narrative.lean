import EdgeCausal.Api.Telemetry

/-!
# `Api.Narrative` — the normalized graph and the sentence told about it

The gateway collapses the pod names of the served graph to workload names and tells one sentence about the
result. With a causal root the sentence comes from a language model, which is asked again only when the
*signature* of the graph changes; a deterministic template stands in when the model gives no answer. The model
is a parameter: what it answers to a prompt, if anything.
-/

namespace EdgeCausal.Api

open Lib

/-! ## The normalized graph -/

structure NormalEdge where
  src : Workload
  dst : Workload
  r : ℚ
  lagS : ℕ
  evidence : List Evidence
  signal : Option Signal
  confidence : Option ℚ
  state : Option EdgeState
  renderWeight : Option ℚ
  source : Option EdgeSource
deriving DecidableEq

structure NormalFinding where
  pod : Workload
  shape : Shape
  onsetS : ℚ
  severity : ℚ
deriving DecidableEq

/-- A projected memory exhaustion. -/
structure Incipient where
  pod : Pod
  shape : Shape
  signal : Signal
  etaS : Option ℚ
  value : Option ℚ
  limit : Option ℚ
  headroomFrac : Option ℚ
deriving DecidableEq

structure NormalGraph where
  root : List RankEntry
  edges : List NormalEdge
  blastRadius : List BlastEntry
  findings : List NormalFinding
  incipient : List Incipient
  info : MergedMeta

def normalEdge (e : ServedEdge) : NormalEdge where
  src := workload e.edge.src
  dst := workload e.edge.dst
  r := e.edge.r
  lagS := e.edge.lagS
  evidence := e.edge.evidence
  signal := e.signal
  confidence := e.mark.map EdgeMark.confidence
  state := e.mark.map EdgeMark.state
  renderWeight := e.mark.map EdgeMark.renderWeight
  source := e.mark.map EdgeMark.source

def normalFinding (f : ServedFinding) : NormalFinding :=
  ⟨workload f.finding.pod, f.finding.shape, f.finding.onsetS, f.finding.severity⟩

/-- The served graph with pod names normalized; the forecasts ride along. -/
def graph (g : MergedGraph) (incipient : List Incipient) : NormalGraph where
  root := g.rootCauseRanking.map fun r => { r with pod := workload r.pod }
  edges := g.edges.map normalEdge
  blastRadius := g.blastRadius.map fun b => { b with pod := workload b.pod }
  findings := g.findings.map normalFinding
  incipient := incipient.map fun f => { f with pod := workload f.pod }
  info := g.info

/-! ## The template -/

/-- What the template's sentence names. -/
structure Story where
  cause : Workload
  victim : Workload
  signal : Signal
  evidence : List Evidence
  eta : Option ℕ
  register : Option Register
deriving DecidableEq

/-- The active-signal label, or the configured default when there is none. -/
def signalLabel (primary : Signal) (g : NormalGraph) : Signal := g.info.signal.getD primary

/-- The edges leaving the top-ranked workload, or all edges when none leaves it. -/
def outEdges (g : NormalGraph) : List NormalEdge :=
  match g.root with
  | [] => []
  | top :: _ =>
      let out := g.edges.filter fun e => e.src = top.pod
      if out = [] then g.edges else out

/-- The ETA of a workload in the blast radius, the last entry winning; zero is not shown. -/
def shownEta (g : NormalGraph) (victim : Workload) : Option ℕ :=
  ((Dict.ofList (g.blastRadius.map fun b => (b.pod, b.etaS))).get? victim).filter (· ≠ 0)

/-- A register is named when the case is a known one. -/
def shownRegister (g : NormalGraph) : Option Register :=
  (g.info.case.map CaseTag.register).filter fun reg => reg = .recurrence ∨ reg = .variant

/-- The story of a graph: its strongest edge leaving the root. A graph without root or edges has none. -/
def story (primary : Signal) (g : NormalGraph) : Option Story :=
  match g.root with
  | [] => none
  | top :: _ =>
      (firstMax (fun e => |e.r|) (outEdges g)).map fun e =>
        { cause := top.pod
          victim := e.dst
          signal := signalLabel primary g
          evidence := e.evidence
          eta := shownEta g e.dst
          register := shownRegister g }

def registerWord : Register → String
  | .recurrence => "recurrence"
  | .variant => "variant"
  | .novel => "novel"

def Story.text (s : Story) : String :=
  let ev := if s.evidence = [] then "correlation" else ", ".intercalate (s.evidence.map Evidence.token)
  let etaTxt := match s.eta with
    | some eta => ", with impact on " ++ s.victim ++ " expected in ~" ++ toString eta ++ "s"
    | none => ""
  let regTxt := match s.register with
    | some reg => " (recognised as a " ++ registerWord reg ++ " of a known case)"
    | none => ""
  s.cause ++ " is the likely root cause of " ++ s.signal ++ " contention: its activity correlates with "
    ++ s.victim ++ " over " ++ ev ++ etaTxt ++ regTxt ++ "."

def templateNarrative (primary : Signal) (g : NormalGraph) : String :=
  match story primary g with
  | some s => s.text
  | none =>
      "Steady state: no causal contention detected across " ++ toString g.info.pods ++ " workloads."

/-! ## The forecast line -/

/-- Divide by 1024 until the number is below it or the units run out. -/
def memUnit (v : ℚ) : List String → ℚ × String
  | [] => (v, "GB")
  | u :: us => if 1024 ≤ v then memUnit (v / 1024) us else (v, u)

def fmtMem (b : ℚ) : String :=
  let (v, u) := memUnit b ["B", "KB", "MB"]
  toString (roundHalfEven v) ++ " " ++ u

/-- The line about the forecast that is due first; a forecast without an ETA comes last. -/
def incipientText (incip : List Incipient) : String :=
  match firstMin (fun f => f.etaS.getD (10 ^ 9)) incip with
  | some f =>
      let eta := f.etaS.getD 0
      "Early warning: " ++ f.pod ++ " is trending toward its memory limit (" ++ fmtMem (f.value.getD 0)
        ++ " of " ++ fmtMem (f.limit.getD 0) ++ ") — projected OOM in ~" ++ toString (eta.num.tdiv eta.den)
        ++ "s."
  | none => ""

/-! ## The signature -/

/-- The object whose JSON text is the cache key: root, edge states and case register. -/
structure VerdictSignature where
  root : Option Workload
  edges : List (Workload × Workload × Option EdgeState)
  case : Option Register
deriving DecidableEq

def stateWord : EdgeState → String
  | .steady => "steady"
  | .active => "active"
  | .confirming => "confirming"
  | .decaying => "decaying"
  | .hidden => "hidden"

/-- Two edges of one pair of workloads, one with a state and one without: a string is compared to `None`. -/
def Incomparable (edges : List NormalEdge) : Prop :=
  ∃ e ∈ edges, ∃ e' ∈ edges, e.src = e'.src ∧ e.dst = e'.dst ∧ e.state = none ∧ e'.state ≠ none

instance (edges : List NormalEdge) : Decidable (Incomparable edges) :=
  inferInstanceAs (Decidable (∃ e ∈ edges, ∃ e' ∈ edges,
    e.src = e'.src ∧ e.dst = e'.dst ∧ e.state = none ∧ e'.state ≠ none))

/-- `(e["src"], e["dst"], e.get("state"))` as the tuples are sorted. -/
def tupleOrder (t : Workload × Workload × Option EdgeState) : String ×ₗ String ×ₗ String :=
  toLex (t.1, toLex (t.2.1, (t.2.2.map stateWord).getD ""))

/-- The signature of a graph; nothing when sorting the edges raises a type error. -/
def verdictSignature (g : NormalGraph) : Option VerdictSignature :=
  if Incomparable g.edges then none
  else
    some
      { root := g.root.head?.map RankEntry.pod
        edges := sortOn tupleOrder (g.edges.map fun e => (e.src, e.dst, e.state))
        case := g.info.case.map CaseTag.register }

/-! ## `GET /api/narrative` -/

def signalResource (sig : Signal) : String :=
  if sig = "psi_io" then "disk I/O"
  else if sig = "psi_cpu" then "CPU"
  else if sig = "psi_mem" then "memory"
  else "resource"

/-- An edge leaving the root that carries a signal. -/
def namesSignal (root : Option Workload) (e : NormalEdge) : Bool :=
  some e.src = root ∧ (truthy e.signal).isSome

/-- The signal of the first such edge, falling back to the active-signal label. -/
def contendedSignal (primary : Signal) (g : NormalGraph) : Signal :=
  ((g.edges.find? (namesSignal (g.root.head?.map RankEntry.pod))).bind NormalEdge.signal).getD
    (signalLabel primary g)

/-- What the prompt is filled with: the resource word and the verdict. -/
structure Prompt where
  resource : String
  root : List RankEntry
  edges : List NormalEdge
  blastRadius : List BlastEntry
  info : MergedMeta

def promptOf (primary : Signal) (g : NormalGraph) : Prompt where
  resource := signalResource (contendedSignal primary g)
  root := g.root
  edges := g.edges
  blastRadius := g.blastRadius
  info := g.info

inductive ReplySource where
  | forecast | steady | llm | fallback
deriving DecidableEq, Repr

structure Reply where
  text : String
  source : ReplySource
  model : Option String
  ts : String
deriving DecidableEq

/-- The cached verdict; the cache is cleared before each write, so it holds one at most. -/
abbrev NarrCache := Option (VerdictSignature × Reply)

/-- A request: the graph at that moment, what the model would answer, and the clock. -/
structure Request where
  graph : NormalGraph
  ollama : Prompt → Option String
  ts : String

variable (primary : Signal) (ollamaModel : String)

/-- The reply to a request without a cached verdict, the forecast line aside. -/
def freshReply (req : Request) : Reply :=
  match req.ollama (promptOf primary req.graph) with
  | some text => ⟨text, .llm, some ollamaModel, req.ts⟩
  | none => ⟨templateNarrative primary req.graph, .fallback, none, req.ts⟩

/-- The forecast is woven into an incident's verdict, computed afresh at every request. -/
def forecastSuffix (g : NormalGraph) : String :=
  if g.incipient ≠ [] then " " ++ incipientText g.incipient else ""

/-- One request. The reply is `none` when the request fails with an unhandled error. -/
def narrative (cache : NarrCache) (req : Request) : Option Reply × NarrCache :=
  let g := req.graph
  if g.root = [] then
    if g.incipient ≠ [] then (some ⟨incipientText g.incipient, .forecast, none, req.ts⟩, cache)
    else (some ⟨templateNarrative primary g, .steady, none, req.ts⟩, cache)
  else
    let fc := forecastSuffix g
    match verdictSignature g with
    | none => (none, cache)
    | some sig =>
        match cache.filter fun entry => entry.1 = sig with
        | some entry => (some { entry.2 with text := entry.2.text ++ fc }, cache)
        | none =>
            let out := freshReply primary ollamaModel req
            -- only the model's own answers are cached
            let kept := if out.source = .llm then some (sig, out) else cache
            (some { out with text := out.text ++ fc }, kept)

/-- The cache after a sequence of requests. -/
def narrativeRun (cache : NarrCache) (reqs : List Request) : NarrCache :=
  reqs.foldl (fun cache req => (narrative primary ollamaModel cache req).2) cache

end EdgeCausal.Api
