import EdgeCausal.Engine.Ranking

/-!
# `Engine.Pipeline` — one correlation pass, signal vectors in, causal graph out

`runPass` detects onsets over the full vectors, keeps the pods that deviate from their learned baseline,
ties every pod to one event, correlates a slice centred on that event, and admits edges in two loops: bare
correlation edges between coupled pods (`psiEdges`) and source edges from a writer to a stalled pod
(`sourceEdges`). With source vectors, one edge per unordered pair survives (`dedupEdges`).
-/

namespace EdgeCausal

open Lib

/-- Correlation floor of a source edge. -/
def rSrc : ℚ := 5 / 10

/-- The arguments of a pass. `none` is Python's `None`; a baseline of `none` is still maturing. -/
structure PassArgs where
  vectors : Dict Pod Series
  witness : Witness
  sloBreach : Option (List Pod)
  caps : Dict Pod ℚ
  window : Option ℕ
  writeVectors : Option (Dict Pod Series)
  baselines : Option (Dict Pod (Option ℚ))
  recent : Option ℕ

/-! ## Detection -/

/-- The onsets that are not weak or spurious. -/
def strongOnsets (vec : Series) : List Onset := (cusumOnsets vec).filter fun o => 3 ≤ |o.zpeak|

/-- The samples over which a deviation is judged: the recent tail, or all of them. -/
def gateVec (recent : Option ℕ) (vec : Series) : Series :=
  match recent with
  | some n => if n = 0 then vec else lastN n vec
  | none => vec

/-- The pod's sustained level clears its incident threshold; without baselines nothing is gated. -/
def deviates (baselines : Option (Dict Pod (Option ℚ))) (recent : Option ℕ) (pod : Pod)
    (vec : Series) : Bool :=
  match baselines with
  | none => true
  | some b =>
      match (b.get? pod).join with
      | none => false
      | some thr => decide (thr < percentile 90 (gateVec recent vec))

/-- The anomalous pods with their onsets. -/
def rawOnsets (baselines : Option (Dict Pod (Option ℚ))) (recent : Option ℕ)
    (vectors : Dict Pod Series) : Dict Pod (List Onset) :=
  vectors.filterMap fun pod vec =>
    let ons := strongOnsets vec
    if ons = [] then none
    else if deviates baselines recent pod vec then some ons else none

/-! ## The event centre -/

/-- Anomalous pods coupled to another anomalous pod. -/
def coupledPods (w : Witness) (onsetPods : List Pod) : List Pod :=
  onsetPods.filter fun p => onsetPods.any fun q => q ≠ p ∧ w.couples p q

/-- One pod of the centre loop: a strictly stronger onset takes over. -/
def centreStep (raw : Dict Pod (List Onset)) (best : ℚ × Option ℕ) (p : Pod) : ℚ × Option ℕ :=
  match firstMax (fun o => |o.zpeak|) ((raw.get? p).getD []) with
  | none => best
  | some o => if |o.zpeak| > best.1 then (|o.zpeak|, some o.idx) else best

/-- The centre's index: the strongest onset among the coupled pods, or among all when none is. -/
def centreIdx (w : Witness) (raw : Dict Pod (List Onset)) : Option ℕ :=
  let coupled := coupledPods w raw.keys
  ((if coupled = [] then raw.keys else coupled).foldl (centreStep raw) (-1, none)).2

/-- `|i - j|`. -/
def idxDist (i j : ℕ) : ℕ := (i - j) + (j - i)

/-- The onset nearest the centre; the first one when there is no centre. -/
def eventOnset (centre : Option ℕ) (ons : List Onset) : Option Onset :=
  match centre with
  | some c => firstMin (fun o => idxDist o.idx c) ons
  | none => ons.head?

/-- Each pod's event onset, seconds. -/
def onsetTimes (centre : Option ℕ) (raw : Dict Pod (List Onset)) : Dict Pod ℚ :=
  raw.filterMap fun _ ons => (eventOnset centre ons).map fun ev => (ev.idx : ℚ) * dtS

def mkFinding (args : PassArgs) (pod : Pod) (ons : List Onset) (ev : Onset) : Finding where
  pod := pod
  shape := classify ((args.vectors.get? pod).getD []) ev.idx (args.caps.get? pod)
  onsetS := (ev.idx : ℚ) * dtS
  severity := min (|ev.zpeak| / 10) 1
  nOnsets := ons.length

/-- The findings, keyed by pod. -/
def passFindings (args : PassArgs) (centre : Option ℕ) (raw : Dict Pod (List Onset)) :
    Dict Pod Finding :=
  raw.filterMap fun pod ons => (eventOnset centre ons).map (mkFinding args pod ons)

/-- The onset of each pod's source signal, tied to the same centre. -/
def writeOnsetTimes (centre : Option ℕ) (writes : Dict Pod Series) : Dict Pod ℚ :=
  writes.filterMap fun _ wv =>
    (eventOnset centre (strongOnsets wv)).map fun ev => (ev.idx : ℚ) * dtS

/-! ## The analysed slice -/

/-- Where the slice starts and how long it is; `none` correlates the full vectors. -/
def sliceBounds (window : Option ℕ) (centre : Option ℕ) (vectors : Dict Pod Series) :
    Option (ℕ × ℕ) :=
  match window, centre with
  | some win, some c =>
      if win = 0 then none
      else
        let n : ℤ := ((vectors.values.headD []).length : ℤ)
        some ((max 0 (min ((c : ℤ) - (win / 3 : ℕ)) (n - win))).toNat, win)
  | _, _ => none

def applySlice (b : Option (ℕ × ℕ)) (d : Dict Pod Series) : Dict Pod Series :=
  match b with
  | some (lo, win) => d.mapVals fun _ v => slice lo win v
  | none => d

/-! ## Admission -/

/-- The two-element combinations of the sorted pod names. -/
def podPairs (vectors : Dict Pod Series) : List (Pod × Pod) := pairs (sortOn id vectors.keys)

/-- The bare correlation edge of a pair, when the pair is coupled, something is anomalous and the gate
    accepts it. -/
def psiEdge (est : Estimators) (w : Witness) (active : List Pod) (onsetS : Dict Pod ℚ)
    (cvec : Dict Pod Series) (ab : Pod × Pod) : Option Edge :=
  let disturbed := active ≠ []
  if w.couples ab.1 ab.2 = false then none
  else if ab.1 ∉ active ∧ ab.2 ∉ active ∧ ¬ disturbed then none
  else
    let d := bestDirected est ((cvec.get? ab.1).getD []) ((cvec.get? ab.2).getD [])
    let src := if d.forward then ab.1 else ab.2
    let dst := if d.forward then ab.2 else ab.1
    acceptEdge src dst d.r d.lagS d.profile w onsetS

def psiEdges (est : Estimators) (w : Witness) (active : List Pod) (onsetS : Dict Pod ℚ)
    (vectors cvec : Dict Pod Series) : List Edge :=
  (podPairs vectors).filterMap (psiEdge est w active onsetS cvec)

/-- The directed source edge writer → staller, of fixed direction. -/
def writerEdge (est : Estimators) (src dst : Pod) (wsrc vdst : Series) (w : Witness)
    (wOnset vOnset : Option ℚ) : Option Edge :=
  let kinds := (w.kinds src dst).filter (· ∈ sourceCouplingKinds)
  if kinds = [] then none
  else
    let prof := lagProfile est wsrc vdst
    match firstMax (fun kv => kv.2) prof.entries with
    | none => none
    | some (lag, r) =>
        if r < rSrc ∨ adjacentSupport prof lag rAdj = false then none
        else
          match wOnset, vOnset with
          | some tw, some tv =>
              if tw > tv + temporalTolS then none
              else some ⟨src, dst, roundAt 3 r, lag, [.write] ++ kinds ++ [.temporal]⟩
          | _, _ => some ⟨src, dst, roundAt 3 r, lag, [.write] ++ kinds⟩

/-- Peak absolute source activity (0 for no samples). -/
def peakAct (wv : Series) : ℚ := maxOf (wv.map fun v => |v|)

/-- The source edge from `p` to `v`, when `p` stormed, `v` is a finding, the pair shares a resource and
    `p` out-writes `v`. -/
def sourceEdge (est : Estimators) (w : Witness) (active : List Pod) (onsetS writeOnsetS : Dict Pod ℚ)
    (cvec writeCvec : Dict Pod Series) (p v : Pod) : Option Edge :=
  let act := fun q => ((writeCvec.get? q).map peakAct).getD 0
  if p ∉ writeOnsetS.keys then none
  else if v = p ∨ w.couplesSource p v = false then none
  else if v ∉ active then none
  else if act p ≤ act v then none
  else
    writerEdge est p v ((writeCvec.get? p).getD []) ((cvec.get? v).getD []) w
      (writeOnsetS.get? p) (onsetS.get? v)

def sourceEdges (est : Estimators) (w : Witness) (active : List Pod)
    (onsetS writeOnsetS : Dict Pod ℚ) (cvec writeCvec : Dict Pod Series) : List Edge :=
  (sortOn id writeCvec.keys).flatMap fun p =>
    (sortOn id cvec.keys).filterMap fun v =>
      sourceEdge est w active onsetS writeOnsetS cvec writeCvec p v

/-- Dedup preference: a write-evidenced edge beats a psi edge; then by `|r|`. -/
def edgePref (e : Edge) : ℕ ×ₗ ℚ := toLex (if Evidence.write ∈ e.evidence then 1 else 0, |e.r|)

/-- One candidate of the dedup loop. -/
def chooseEdge (chosen : Dict (Pod × Pod) Edge) (e : Edge) : Dict (Pod × Pod) Edge :=
  let pair := frozenPair e.src e.dst
  match chosen.get? pair with
  | none => chosen.set pair e
  | some old => if edgePref old < edgePref e then chosen.set pair e else chosen

/-- One edge per unordered pair, sorted by its endpoints. -/
def dedupEdges (edges : List Edge) : List Edge :=
  sortOn (fun e => (toLex (e.src, e.dst) : Pod ×ₗ Pod)) (edges.foldl chooseEdge ∅).values

/-! ## The pass -/

namespace PassArgs
variable (args : PassArgs)

/-- The anomalous pods of the pass. -/
def raw : Dict Pod (List Onset) := rawOnsets args.baselines args.recent args.vectors

/-- The event centre. -/
def centre : Option ℕ := centreIdx args.witness args.raw

/-- The findings, keyed by pod. -/
def findings : Dict Pod Finding := passFindings args args.centre args.raw

def onsetS : Dict Pod ℚ := onsetTimes args.centre args.raw

/-- The pods with a finding. -/
def active : List Pod := args.findings.keys

/-- The source vectors; none given is an empty map. -/
def writes : Dict Pod Series := args.writeVectors.getD ∅

def writeOnsetS : Dict Pod ℚ := writeOnsetTimes args.centre args.writes

def bounds : Option (ℕ × ℕ) := sliceBounds args.window args.centre args.vectors

/-- The analysed slice of every signal vector. -/
def cvec : Dict Pod Series := applySlice args.bounds args.vectors

/-- The analysed slice of every source vector. -/
def writeCvec : Dict Pod Series := applySlice args.bounds args.writes

/-- The symptoms the ranking is seeded with: the breach list, or every finding when there is none. -/
def seeds : List Pod :=
  match args.sloBreach with
  | some (p :: ps) => p :: ps
  | _ => sortOn id args.active

end PassArgs

/-- The admitted edges of a pass. -/
def passEdges (est : Estimators) (args : PassArgs) : List Edge :=
  let psi := psiEdges est args.witness args.active args.onsetS args.vectors args.cvec
  if args.writes.entries = [] then psi
  else
    dedupEdges (psi ++ sourceEdges est args.witness args.active args.onsetS args.writeOnsetS args.cvec
      args.writeCvec)

/-- One correlation pass. -/
def runPass (est : Estimators) (args : PassArgs) : CausalGraph :=
  let edges := passEdges est args
  let g := buildGraph edges
  let ranking := rankRootCauses g args.seeds args.onsetS topCauses
  { findings := sortOn (fun f => f.onsetS) args.findings.values
    edges := edges
    rootCauseRanking := ranking
    blastRadius := blastOfTop g ranking
    pods := args.vectors.entries.length
    active := args.active.length
    acceptedEdges := edges.length }

end EdgeCausal
