import EdgeCausal.Correctness.Admission
import EdgeCausal.Correctness.ForwardImpact
import EdgeCausal.Correctness.Silence

/-!
# `Correctness.Copressure` — co-pressure corroborates and decides nothing

Two passes whose witnesses differ in `psi_copressure` alone. The relation reaches the output through one
token of an edge's evidence: erasing that token (`dropPsi`) commutes with both edge loops and with the
deduplication, and neither ranking nor blast radius reads the evidence. What does read it is the vote for a
case's witness kind, and there the token never wins: where pairs share a disk every edge cites `pvc`, and the
source edge that promotes the case cites no `psi`.
-/

namespace EdgeCausal

open Lib

/-! ## Ranking and blast radius do not read the evidence -/

section Blank
variable {g : CGraph}

def blankEdge (e : Edge) : Edge := { e with evidence := [] }

def EdgeData.blank (d : EdgeData) : EdgeData := { d with evidence := [] }

/-- The graph without its evidence. -/
def blankGraph (g : CGraph) : CGraph where
  nodes := g.nodes
  edges := g.edges.mapVals fun _ d => d.blank
  nodes_nodup := g.nodes_nodup
  closed := by rw [Dict.keys_mapVals]; exact g.closed

theorem buildGraph_blank (edges : List Edge) :
    buildGraph (edges.map blankEdge) = blankGraph (buildGraph edges) := by
  have hstep : ∀ (g : CGraph) (e : Edge), addEdge (blankGraph g) (blankEdge e) = blankGraph (addEdge g e) := by
    intro g e
    apply DiGraph.ext'
    · rfl
    · have hset := Dict.mapVals_set g.edges (fun _ d => d.blank) (e.src, e.dst) ⟨|e.r|, e.lagS, e.evidence⟩
      exact hset.symm
  unfold buildGraph
  rw [List.foldl_map]
  show edges.foldl (fun g e => addEdge g (blankEdge e)) (blankGraph ∅) = _
  exact List.foldl_hom blankGraph hstep

theorem outEdges_blank (u : Pod) :
    (blankGraph g).outEdges u = (g.outEdges u).map fun out => (out.1, out.2.blank) := by
  show ((g.edges.entries.map fun p => (p.1, p.2.blank)).filterMap _) = (g.edges.entries.filterMap _).map _
  rw [List.filterMap_map, List.map_filterMap]
  apply List.filterMap_congr
  rintro ⟨⟨a, b⟩, d⟩ _
  show (if a = u then some (b, d.blank) else none)
    = (if a = u then some (b, d) else none).map fun out : Pod × EdgeData => (out.1, out.2.blank)
  split
  · rfl
  · rfl

theorem inDegree_blank (v : Pod) : (blankGraph g).inDegree v = g.inDegree v := by
  unfold DiGraph.inDegree blankGraph
  rw [Dict.keys_mapVals]

theorem numberOfEdges_blank : (blankGraph g).numberOfEdges = g.numberOfEdges :=
  List.length_map _

theorem forwardImpact_blank (root : Pod) : forwardImpact (blankGraph g) root = forwardImpact g root := by
  have hvisit : impactVisit (blankGraph g) = impactVisit g := by
    funext entry impact
    unfold impactVisit
    rw [outEdges_blank, List.foldl_map]
    rfl
  have hfuel : impactFuel (blankGraph g) = impactFuel g := by
    unfold impactFuel
    rw [numberOfEdges_blank]
  unfold forwardImpact
  rw [impactLoop_eq_drain, impactLoop_eq_drain, hvisit, hfuel]

theorem rankRootCauses_blank (seeds : List Pod) (onsetS : Dict Pod ℚ) (top : ℕ) :
    rankRootCauses (blankGraph g) seeds onsetS top = rankRootCauses g seeds onsetS top := by
  have hexplain : explain (blankGraph g) = explain g := by
    funext ss n
    unfold explain
    rw [forwardImpact_blank, inDegree_blank]
  have hscores : scores (blankGraph g) = scores g := by
    funext ss
    unfold scores
    rw [hexplain]
    rfl
  unfold rankRootCauses ranked
  rw [numberOfEdges_blank, hscores]
  rfl

theorem blastRadius_blank (root : Pod) : blastRadius (blankGraph g) root = blastRadius g root := by
  have hloop : ∀ n s, blastLoop (blankGraph g) n s = blastLoop g n s := by
    intro n
    induction n with
    | zero => exact fun s => rfl
    | succ n ih =>
        intro s
        unfold blastLoop
        cases s.frontier with
        | nil => rfl
        | cons entry rest =>
            obtain ⟨node, w, eta⟩ := entry
            dsimp only
            rw [outEdges_blank, List.foldl_map, ih]
            rfl
  unfold blastRadius
  rw [hloop]
  rfl

/-- Edge lists that differ in their evidence alone are ranked alike. -/
theorem ranking_congr {edges edges' : List Edge} (h : edges'.map blankEdge = edges.map blankEdge)
    (seeds : List Pod) (onsetS : Dict Pod ℚ) (top : ℕ) :
    rankRootCauses (buildGraph edges') seeds onsetS top =
        rankRootCauses (buildGraph edges) seeds onsetS top := by
  rw [← rankRootCauses_blank, ← buildGraph_blank, h, buildGraph_blank, rankRootCauses_blank]

theorem blastRadius_congr {edges edges' : List Edge} (h : edges'.map blankEdge = edges.map blankEdge)
    (root : Pod) : blastRadius (buildGraph edges') root = blastRadius (buildGraph edges) root := by
  rw [← blastRadius_blank, ← buildGraph_blank, h, buildGraph_blank, blastRadius_blank]

end Blank

/-! ## Two witnesses -/

/-- The witness with another co-pressure relation. -/
def Witness.withCopressure (w : Witness) (psi : List (Pod × Pod)) : Witness := { w with psiCopressure := psi }

/-- The same pass under a witness with another co-pressure relation. -/
def PassArgs.withCopressure (args : PassArgs) (psi : List (Pod × Pod)) : PassArgs :=
  { args with witness := args.witness.withCopressure psi }

/-- The edge without its `psi` token. -/
def dropPsi (e : Edge) : Edge := { e with evidence := e.evidence.filter (· ≠ .psi) }

section Kinds
variable (w : Witness) (psi : List (Pod × Pod)) (a b : Pod)

theorem couples_withCopressure : (w.withCopressure psi).couples a b = w.couples a b := by
  rw [Bool.eq_iff_iff, Witness.couples_iff, Witness.couples_iff]
  rfl

theorem couplesSource_withCopressure : (w.withCopressure psi).couplesSource a b = w.couplesSource a b := by
  rw [Bool.eq_iff_iff, Witness.couplesSource_iff, Witness.couplesSource_iff]
  rfl

/-- The relations of a pair, `psi` apart. -/
theorem kinds_withCopressure :
    ((w.withCopressure psi).kinds a b).filter (· ≠ .psi) = (w.kinds a b).filter (· ≠ .psi) := by
  unfold Witness.kinds Witness.withCopressure
  simp only [List.filter_append]
  cases relates psi a b <;> cases relates w.psiCopressure a b <;> rfl

/-- `psi` is not one of the relations a writer may cite. -/
theorem sourceKinds_withCopressure :
    ((w.withCopressure psi).kinds a b).filter (· ∈ sourceCouplingKinds)
      = (w.kinds a b).filter (· ∈ sourceCouplingKinds) := by
  unfold Witness.kinds Witness.withCopressure
  simp only [List.filter_append]
  cases relates psi a b <;> cases relates w.psiCopressure a b <;> rfl

end Kinds

/-! ## Erasing the token commutes with the pass -/

section Pass
variable {est : Estimators} {args : PassArgs} {psi : List (Pod × Pod)}

theorem centre_withCopressure : (args.withCopressure psi).centre = args.centre := by
  show centreIdx (args.witness.withCopressure psi) args.raw = centreIdx args.witness args.raw
  unfold centreIdx coupledPods
  simp only [couples_withCopressure]

theorem findings_withCopressure : (args.withCopressure psi).findings = args.findings := by
  show passFindings args (args.withCopressure psi).centre args.raw = _
  rw [centre_withCopressure]
  rfl

theorem onsetS_withCopressure : (args.withCopressure psi).onsetS = args.onsetS := by
  show onsetTimes (args.withCopressure psi).centre args.raw = _
  rw [centre_withCopressure]
  rfl

theorem writeOnsetS_withCopressure : (args.withCopressure psi).writeOnsetS = args.writeOnsetS := by
  show writeOnsetTimes (args.withCopressure psi).centre args.writes = _
  rw [centre_withCopressure]
  rfl

theorem bounds_withCopressure : (args.withCopressure psi).bounds = args.bounds := by
  show sliceBounds args.window (args.withCopressure psi).centre args.vectors = _
  rw [centre_withCopressure]
  rfl

theorem acceptEdge_withCopressure (w : Witness) (src dst : Pod) (r : ℚ) (lagS : ℕ) (profile : Dict ℕ ℚ)
    (onsetS : Dict Pod ℚ) :
    (acceptEdge src dst r lagS profile (w.withCopressure psi) onsetS).map dropPsi
      = (acceptEdge src dst r lagS profile w onsetS).map dropPsi := by
  have hkinds : ((w.withCopressure psi).kinds src dst).any (· ∈ couplingKinds)
      = (w.kinds src dst).any (· ∈ couplingKinds) := couples_withCopressure w psi src dst
  unfold acceptEdge
  dsimp only
  rw [hkinds]
  split
  · rfl
  · split
    · rfl
    · split
      · rfl
      · -- accepted by both: the evidence differs inside the kinds alone
        simp only [Option.map_some, dropPsi, List.filter_append, kinds_withCopressure]

theorem psiEdges_withCopressure (est : Estimators) (psi : List (Pod × Pod)) (w : Witness) (active : List Pod)
    (onsetS : Dict Pod ℚ)
    (vectors cvec : Dict Pod Series) :
    (psiEdges est (w.withCopressure psi) active onsetS vectors cvec).map dropPsi
      = (psiEdges est w active onsetS vectors cvec).map dropPsi := by
  unfold psiEdges
  rw [List.map_filterMap, List.map_filterMap]
  apply List.filterMap_congr
  intro ab _
  unfold psiEdge
  dsimp only
  rw [couples_withCopressure]
  split
  · rfl
  · split
    · rfl
    · exact acceptEdge_withCopressure w _ _ _ _ _ onsetS

/-- The source loop does not see the relation at all. -/
theorem sourceEdges_withCopressure (w : Witness) (active : List Pod) (onsetS writeOnsetS : Dict Pod ℚ)
    (cvec writeCvec : Dict Pod Series) :
    sourceEdges est (w.withCopressure psi) active onsetS writeOnsetS cvec writeCvec
      = sourceEdges est w active onsetS writeOnsetS cvec writeCvec := by
  unfold sourceEdges sourceEdge writerEdge
  simp only [couplesSource_withCopressure, sourceKinds_withCopressure]

theorem edgePref_dropPsi (e : Edge) : edgePref (dropPsi e) = edgePref e := by
  unfold edgePref dropPsi
  simp

/-- Deduplication keeps or drops an edge without looking at the token. -/
theorem dedupEdges_dropPsi (edges : List Edge) :
    dedupEdges (edges.map dropPsi) = (dedupEdges edges).map dropPsi := by
  -- the choice between two candidates does not look at the token
  have hstep : ∀ (chosen : Dict (Pod × Pod) Edge) (e : Edge),
      chooseEdge (chosen.mapVals fun _ => dropPsi) (dropPsi e)
        = (chooseEdge chosen e).mapVals fun _ => dropPsi := by
    intro chosen e
    unfold chooseEdge
    dsimp only
    rw [show frozenPair (dropPsi e).src (dropPsi e).dst = frozenPair e.src e.dst from rfl, Dict.get?_mapVals]
    cases chosen.get? (frozenPair e.src e.dst) with
    | none => exact (Dict.mapVals_set ..).symm
    | some old =>
        simp only [Option.map_some, edgePref_dropPsi]
        split
        · exact (Dict.mapVals_set ..).symm
        · rfl
  have hfold : (edges.map dropPsi).foldl chooseEdge ∅
      = (edges.foldl chooseEdge ∅).mapVals fun _ => dropPsi := by
    rw [List.foldl_map]
    show edges.foldl (fun chosen e => chooseEdge chosen (dropPsi e))
      ((fun d : Dict (Pod × Pod) Edge => d.mapVals fun _ => dropPsi) ∅) = _
    exact List.foldl_hom (fun d : Dict (Pod × Pod) Edge => d.mapVals fun _ => dropPsi) hstep
  have hvalues : ∀ d : Dict (Pod × Pod) Edge,
      (d.mapVals fun _ => dropPsi).values = d.values.map dropPsi := by
    intro d
    unfold Dict.values Dict.mapVals
    rw [List.map_map, List.map_map]
    rfl
  unfold dedupEdges
  rw [hfold, hvalues]
  exact (map_sortOn dropPsi _ _ (fun _ => rfl) _).symm

/-- **The edges of the two passes are equal up to the token.** -/
theorem passEdges_withCopressure :
    (passEdges est (args.withCopressure psi)).map dropPsi = (passEdges est args).map dropPsi := by
  have hactive : (args.withCopressure psi).active = args.active := by
    unfold PassArgs.active
    rw [findings_withCopressure]
  have hcvec : (args.withCopressure psi).cvec = args.cvec := by
    show applySlice (args.withCopressure psi).bounds args.vectors = _
    rw [bounds_withCopressure]
    rfl
  have hwriteCvec : (args.withCopressure psi).writeCvec = args.writeCvec := by
    show applySlice (args.withCopressure psi).bounds args.writes = _
    rw [bounds_withCopressure]
    rfl
  unfold passEdges
  dsimp only
  rw [hactive, hcvec, hwriteCvec, onsetS_withCopressure, writeOnsetS_withCopressure]
  show (if args.writes.entries = [] then _ else _ : List Edge).map dropPsi = _
  have hpsi := psiEdges_withCopressure est psi args.witness args.active args.onsetS args.vectors args.cvec
  split
  · exact hpsi
  · rw [← dedupEdges_dropPsi, ← dedupEdges_dropPsi, List.map_append, List.map_append, ← hpsi]
    show dedupEdges (_ ++ (sourceEdges est (args.witness.withCopressure psi) _ _ _ _ _).map dropPsi) = _
    rw [sourceEdges_withCopressure]
    rfl

/-- A column that does not see the token is the same for both edge lists. -/
theorem map_eq_of_dropPsi {α : Type} {edges edges' : List Edge} (f : Edge → α) (hf : ∀ e, f (dropPsi e) = f e)
    (h : edges'.map dropPsi = edges.map dropPsi) : edges'.map f = edges.map f := by
  have hcomp : ∀ l : List Edge, l.map f = (l.map dropPsi).map f := by
    intro l
    rw [List.map_map]
    exact List.map_congr_left fun e _ => (hf e).symm
  rw [hcomp, h, ← hcomp]

/-- Two pass outputs that agree on all but the token. -/
structure SameButPsi (g g' : CausalGraph) : Prop where
  findings : g'.findings = g.findings
  edges : g'.edges.map dropPsi = g.edges.map dropPsi
  ranking : g'.rootCauseRanking = g.rootCauseRanking
  blast : g'.blastRadius = g.blastRadius

theorem runPass_withCopressure :
    SameButPsi (runPass est args) (runPass est (args.withCopressure psi)) := by
  have hedges : (passEdges est (args.withCopressure psi)).map dropPsi = (passEdges est args).map dropPsi :=
    passEdges_withCopressure
  have hblank : (passEdges est (args.withCopressure psi)).map blankEdge = (passEdges est args).map blankEdge :=
    map_eq_of_dropPsi blankEdge (fun _ => rfl) hedges
  have hseeds : (args.withCopressure psi).seeds = args.seeds := by
    unfold PassArgs.seeds PassArgs.active
    rw [findings_withCopressure]
    rfl
  have hrank : (runPass est (args.withCopressure psi)).rootCauseRanking =
      (runPass est args).rootCauseRanking := by
    show rankRootCauses _ (args.withCopressure psi).seeds (args.withCopressure psi).onsetS topCauses = _
    rw [hseeds, onsetS_withCopressure]
    exact ranking_congr hblank args.seeds args.onsetS topCauses
  refine ⟨?_, hedges, hrank, ?_⟩
  · show sortOn _ (args.withCopressure psi).findings.values = _
    rw [findings_withCopressure]
    rfl
  · show blastOfTop _ (runPass est (args.withCopressure psi)).rootCauseRanking
      = blastOfTop _ (runPass est args).rootCauseRanking
    rw [hrank]
    unfold blastOfTop
    cases (runPass est args).rootCauseRanking with
    | nil => rfl
    | cons top rest => exact blastRadius_congr hblank top.pod

end Pass

/-! ## The vote for a witness kind -/

/-- The tokens of an edge that count in the vote. -/
def citedOf (e : Edge) : List Evidence := e.evidence.filter (· ∉ nonPhysical)

/-- The edge cites `pvc`, and `psi` beside it at most. -/
def CitesPvc (e : Edge) : Prop := citedOf e = [.pvc] ∨ citedOf e = [.psi, .pvc]

/-- `pvc` is counted once an edge. -/
theorem count_pvc {edges : List Edge} (hall : ∀ e ∈ edges, CitesPvc e) :
    (edges.flatMap citedOf).count .pvc = edges.length := by
  induction edges with
  | nil => rfl
  | cons e edges ih =>
      have hrest := ih fun e he => hall e (List.mem_cons_of_mem _ he)
      rw [List.flatMap_cons, List.count_append, List.length_cons, hrest]
      rcases hall e List.mem_cons_self with he | he
      · simp [he, Nat.add_comm]
      · simp [he, Nat.add_comm]

/-- `psi` is counted once for each edge that cites it. -/
theorem count_psi {edges : List Edge} (hall : ∀ e ∈ edges, CitesPvc e) :
    (edges.flatMap citedOf).count .psi = edges.countP fun e => citedOf e ≠ [.pvc] := by
  induction edges with
  | nil => rfl
  | cons e edges ih =>
      have hrest := ih fun e he => hall e (List.mem_cons_of_mem _ he)
      rw [List.flatMap_cons, List.count_append, List.countP_cons, hrest]
      rcases hall e List.mem_cons_self with he | he
      · simp [he]
      · simp [he, Nat.add_comm]

theorem cited_of_citesPvc {edges : List Edge} (hall : ∀ e ∈ edges, CitesPvc e) {k : Evidence}
    (hk : k ∈ edges.flatMap citedOf) : k = .pvc ∨ k = .psi := by
  obtain ⟨e, he, hke⟩ := List.mem_flatMap.mp hk
  rcases hall e he with hcited | hcited
  · rw [hcited] at hke
    exact Or.inl (List.mem_singleton.mp hke)
  · rw [hcited] at hke
    rcases List.mem_cons.mp hke with hpsi | hpvc
    · exact Or.inr hpsi
    · exact Or.inl (List.mem_singleton.mp hpvc)

/-- Where every edge cites `pvc`, `psi` beside it at most, and one edge does not cite `psi`, the vote goes
    to `pvc`. -/
theorem dominantWitness_pvc {edges : List Edge} (hall : ∀ e ∈ edges, CitesPvc e)
    (hone : ∃ e ∈ edges, citedOf e = [.pvc]) :
    dominantWitness edges = some .pvc := by
  have hcited : (edges.flatMap Edge.evidence).filter (· ∉ nonPhysical) = edges.flatMap citedOf :=
    List.filter_flatMap ..
  obtain ⟨e, he, hce⟩ := hone
  have hlt : (edges.flatMap citedOf).count .psi < edges.length := by
    rw [count_psi hall]
    refine lt_of_le_of_ne List.countP_le_length fun hevery => ?_
    exact absurd hce (by simpa using List.countP_eq_length.mp hevery e he)
  have hpvcmem : Evidence.pvc ∈ edges.flatMap citedOf :=
    List.mem_flatMap.mpr ⟨e, he, by rw [hce]; exact List.mem_singleton_self _⟩
  have hhead : (sortOn (fun kv : Evidence × ℕ =>
      (toLex (OrderDual.toDual kv.2, kv.1.token) : ℕᵒᵈ ×ₗ String))
      (Dict.counter (edges.flatMap citedOf)).entries).head? = some (.pvc, edges.length) := by
    apply head?_sortOn
    · exact Dict.mem_counter.mpr ⟨hpvcmem, (count_pvc hall).symm⟩
    · rintro ⟨k, n⟩ hkn hne
      obtain ⟨hk, rfl⟩ := Dict.mem_counter.mp hkn
      rcases cited_of_citesPvc hall hk with rfl | rfl
      · exact absurd (by rw [count_pvc hall]) hne
      · rw [Prod.Lex.toLex_lt_toLex]
        exact Or.inl (OrderDual.toDual_lt_toDual.mpr hlt)
  unfold dominantWitness
  dsimp only
  rw [hcited]
  show ((sortOn _ (Dict.counter (edges.flatMap citedOf)).entries).head?).map Prod.fst = _
  rw [hhead]
  rfl

/-! ## The witnesses of the service -/

/-- A witness of the shape the service builds: no network edges, and either shared disks or shared nodes. -/
def ServiceShaped (w : Witness) : Prop := w.ebpfEdges = [] ∧ (w.sameNode = [] ∨ w.sharedRelation = [])

theorem witnessFor_shaped (svc : ServiceConfig) (signal : Signal) (vectors : Dict Pod Series) :
    ServiceShaped (witnessFor svc signal vectors) := by
  refine ⟨rfl, ?_⟩
  unfold witnessFor
  by_cases h : signal = "psi_io"
  · exact Or.inl (if_pos h)
  · exact Or.inr (if_neg h)

section Shaped
variable {est : Estimators} {args : PassArgs} {psi : List (Pod × Pod)} {e : Edge}

@[simp] theorem relates_nil (a b : Pod) : relates [] a b = false := by
  simp [relates]

/-- The relations of a coupled pair under a disk witness. -/
theorem kinds_of_disk {w : Witness} (hebpf : w.ebpfEdges = []) (hnode : w.sameNode = []) {a b : Pod}
    (h : w.couplesSource a b = true) : w.kinds a b = [.pvc] ∨ w.kinds a b = [.psi, .pvc] := by
  rw [Witness.couplesSource_iff, hebpf, hnode, relates_nil] at h
  have hshared : relates w.sharedRelation a b = true := by simpa using h
  unfold Witness.kinds
  rw [hebpf, hnode, relates_nil, hshared]
  cases relates w.psiCopressure a b
  · exact Or.inl rfl
  · exact Or.inr rfl

/-- Under a disk witness every edge of a pass cites `pvc`, and a source edge cites no `psi`. -/
theorem citedOf_disk (hebpf : args.witness.ebpfEdges = []) (hnode : args.witness.sameNode = [])
    (he : e ∈ passEdges est args) :
    (citedOf e = [.pvc] ∨ citedOf e = [.psi, .pvc]) ∧ (Evidence.write ∈ e.evidence → citedOf e = [.pvc]) := by
  rcases passEdges_spec he with hb | hs
  · have hcoup : args.witness.couplesSource e.src e.dst = true := by
      rw [Witness.couplesSource_iff]
      exact (Witness.couples_iff.mp hb.coupled).imp_right Or.inl
    have hcited : citedOf e = args.witness.kinds e.src e.dst := by
      unfold citedOf
      rw [hb.evidence, temporalTag]
      rcases kinds_of_disk hebpf hnode hcoup with hk | hk <;> rw [hk] <;> split <;> decide
    refine ⟨hcited ▸ kinds_of_disk hebpf hnode hcoup, ?_⟩
    intro hw
    exact absurd hw hb.write_not_mem
  · have hcited : citedOf e = [.pvc] := by
      unfold citedOf
      rw [hs.evidence]
      rcases kinds_of_disk hebpf hnode hs.coupled with hk | hk <;> rw [hk] <;> decide
    exact ⟨Or.inl hcited, fun _ => hcited⟩

/-- A write edge anywhere in the pass settles the vote under a disk witness. -/
theorem dominantWitness_disk (hebpf : args.witness.ebpfEdges = []) (hnode : args.witness.sameNode = [])
    (hw : ∃ e ∈ passEdges est args, Evidence.write ∈ e.evidence) :
    dominantWitness (passEdges est args) = some .pvc := by
  obtain ⟨e, he, hwe⟩ := hw
  exact dominantWitness_pvc (fun f hf => (citedOf_disk hebpf hnode hf).1) ⟨e, he,
    (citedOf_disk hebpf hnode he).2 hwe⟩

/-- Without shared disks and network edges every edge is a source edge, and none cites `psi`. -/
theorem dropPsi_node (hebpf : args.witness.ebpfEdges = []) (hshared : args.witness.sharedRelation = [])
    (he : e ∈ passEdges est args) : dropPsi e = e := by
  have hsource : SourceEdge est args e := by
    rcases passEdges_spec he with hb | hs
    · have hcoup := Witness.couples_iff.mp hb.coupled
      rw [hebpf, hshared, relates_nil] at hcoup
      exact absurd hcoup (by simp)
    · exact hs
  have hpsi : Evidence.psi ∉ e.evidence := by
    rw [hsource.evidence]
    simp [sourceCouplingKinds]
  unfold dropPsi
  rw [List.filter_eq_self.mpr]
  intro k hk
  exact decide_eq_true fun h => hpsi (h ▸ hk)

/-- **The vote never tips.** Once the pass has a source edge, both witnesses name one dominant kind. -/
theorem dominantWitness_withCopressure (hshape : ServiceShaped args.witness)
    (hw : ∃ e ∈ passEdges est args, Evidence.write ∈ e.evidence)
    (hw' : ∃ e ∈ passEdges est (args.withCopressure psi), Evidence.write ∈ e.evidence) :
    dominantWitness (passEdges est (args.withCopressure psi)) = dominantWitness (passEdges est args) := by
  obtain ⟨hebpf, hnode | hshared⟩ := hshape
  · have hebpf' : (args.withCopressure psi).witness.ebpfEdges = [] := hebpf
    have hnode' : (args.withCopressure psi).witness.sameNode = [] := hnode
    rw [dominantWitness_disk hebpf hnode hw, dominantWitness_disk hebpf' hnode' hw']
  · have hself : ∀ {args : PassArgs}, args.witness.ebpfEdges = [] → args.witness.sharedRelation = [] →
        (passEdges est args).map dropPsi = passEdges est args := by
      intro args he hs
      exact (List.map_congr_left fun e hmem => dropPsi_node he hs hmem).trans (List.map_id _)
    have hebpf' : (args.withCopressure psi).witness.ebpfEdges = [] := hebpf
    have hshared' : (args.withCopressure psi).witness.sharedRelation = [] := hshared
    rw [← hself hebpf' hshared', passEdges_withCopressure, hself hebpf hshared]

/-! ## Promotion -/

/-- The edge is a source edge that leaves the workload. -/
def leavesAsSource (root : Workload) (e : Edge) : Bool :=
  stableWorkload e.src = root ∧ e.evidence.any (· ∈ sourceEvidence)

theorem any_leavesAsSource {edges edges' : List Edge} (h : edges'.map dropPsi = edges.map dropPsi)
    (root : Workload) : edges'.any (leavesAsSource root) = edges.any (leavesAsSource root) := by
  have hkeep : ∀ e, leavesAsSource root (dropPsi e) = leavesAsSource root e := by
    intro e
    unfold leavesAsSource dropPsi sourceEvidence
    simp
  have hmap := map_eq_of_dropPsi (leavesAsSource root) hkeep h
  have hany : ∀ l : List Edge, l.any (leavesAsSource root) = (l.map (leavesAsSource root)).any id := by
    intro l
    rw [List.any_map]
    rfl
  rw [hany, hmap, ← hany]

theorem write_of_leavesAsSource {edges : List Edge} {root : Workload}
    (h : edges.any (leavesAsSource root) = true) : ∃ e ∈ edges, Evidence.write ∈ e.evidence := by
  obtain ⟨e, he, hle⟩ := List.any_eq_true.mp h
  have hsource : e.evidence.any (· ∈ sourceEvidence) = true := (of_decide_eq_true hle).2
  obtain ⟨k, hk, hks⟩ := List.any_eq_true.mp hsource
  have hkw : k = .write := by simpa [sourceEvidence] using hks
  exact ⟨e, he, hkw ▸ hk⟩

/-- **The two passes have one fingerprint.** -/
theorem fingerprint_withCopressure (cfg : MemoryConfig) (hshape : ServiceShaped args.witness) :
    fingerprint cfg (runPass est (args.withCopressure psi)) = fingerprint cfg (runPass est args) := by
  have hsame : SameButPsi (runPass est args) (runPass est (args.withCopressure psi)) := runPass_withCopressure
  have hvictims : ∀ root, caseVictims (runPass est (args.withCopressure psi)) root
      = caseVictims (runPass est args) root := by
    intro root
    have hdst := map_eq_of_dropPsi (fun e => stableWorkload e.dst) (fun _ => rfl) hsame.edges
    unfold caseVictims
    rw [hsame.blast, hdst]
  have hmotif : caseMotif (runPass est (args.withCopressure psi)) = caseMotif (runPass est args) := by
    unfold caseMotif
    rw [map_eq_of_dropPsi (fun e => (stableWorkload e.src, stableWorkload e.dst)) (fun _ => rfl) hsame.edges]
  unfold fingerprint
  rw [hsame.ranking]
  cases (runPass est args).rootCauseRanking with
  | nil => rfl
  | cons top rest =>
      dsimp only
      -- both passes promote or neither does, and where they do the vote is the same
      have hany := any_leavesAsSource hsame.edges (stableWorkload top.pod)
      show (if (runPass est (args.withCopressure psi)).edges.any
        (leavesAsSource (stableWorkload top.pod)) = false
        then none else _) = if (runPass est args).edges.any (leavesAsSource (stableWorkload top.pod)) = false
        then none else _
      rw [hany, hvictims, hmotif]
      split
      · rfl
      · rename_i hsource
        rw [Bool.not_eq_false] at hsource
        have hvote : dominantWitness (runPass est (args.withCopressure psi)).edges
            = dominantWitness (runPass est args).edges :=
          dominantWitness_withCopressure hshape (write_of_leavesAsSource hsource)
            (write_of_leavesAsSource (hany.trans hsource))
        rw [hvote]

/-- **Co-pressure only corroborates.** Two passes that differ in the co-pressure relation alone have the same
    findings, ranking, blast radius and edges, up to the token `psi` in an edge's evidence; and with witnesses
    of the service's shape both promote the same case, whatever the library, the hash and the settings. -/
theorem copressure_corroborates (est : Estimators) (args : PassArgs) (psi : List (Pod × Pod)) :
    let g := runPass est args
    let g' := runPass est (args.withCopressure psi)
    (g'.findings = g.findings ∧ g'.rootCauseRanking = g.rootCauseRanking ∧ g'.blastRadius = g.blastRadius ∧
      g'.edges.map dropPsi = g.edges.map dropPsi) ∧
    (ServiceShaped args.witness → ∀ (cfg : MemoryConfig) (sha1 : CaseKey → CaseId) (m : Memory) (ts : ℚ),
      (fingerprint cfg g').map CaseKey.witnessKind = (fingerprint cfg g).map CaseKey.witnessKind ∧
      (promoteCase cfg sha1 m g' ts).2 = (promoteCase cfg sha1 m g ts).2) := by
  intro g g'
  have hsame : SameButPsi g g' := runPass_withCopressure
  refine ⟨⟨hsame.findings, hsame.ranking, hsame.blast, hsame.edges⟩, ?_⟩
  intro hshape cfg sha1 m ts
  have hfp : fingerprint cfg g' = fingerprint cfg g := fingerprint_withCopressure cfg hshape
  refine ⟨by rw [hfp], ?_⟩
  unfold promoteCase
  rw [hfp]
  cases fingerprint cfg g with
  | none => rfl
  | some fp => rfl

end Shaped

/-! ### A storm on three storage pods -/

def floodService : ServiceConfig := { idleService with storage := ["timescaledb", "log-archiver", "historian-db"] }

/-- The archiver writes, and it and the two databases stall together. -/
def floodInput : PassInput :=
  let stalls : Series := List.replicate 20 0 ++ List.replicate 6 5
  PassInput.ofWindow floodService
    (fun sig =>
      if sig = "psi_io" then
        .ofList [("log-archiver-6d-x1", stalls), ("timescaledb-0-y2", stalls), ("historian-db-0-z3", stalls)]
      else if sig = "io_write" then .ofList [("log-archiver-6d-x1", stalls.map (100 * ·))]
      else ∅) [] 100 105

/-- Mature rows of the three, at rest. -/
def restedMemory : Memory :=
  { Memory.empty with baselines := .ofList (["log-archiver", "timescaledb", "historian-db"].map fun wl =>
      ((wl, "psi_io"), ⟨0, 0, 20, 0⟩)) }

/-- Without the co-pressure of the three pods no edge cites it, and the same case is promoted. -/
theorem copressure_corroborates_flood :
    let args := passArgs floodService "psi_io" restedMemory floodInput
    let g := runPass numericEstimators args
    let g' := runPass numericEstimators (args.withCopressure [])
    ((∃ e ∈ g.edges, Evidence.psi ∈ e.evidence) ∧ (∀ e ∈ g'.edges, Evidence.psi ∉ e.evidence) ∧
      (promoteCase MemoryConfig.default (fun _ => 0) restedMemory g 100).2.isSome) ∧
    (g'.findings = g.findings ∧ g'.rootCauseRanking = g.rootCauseRanking ∧ g'.blastRadius = g.blastRadius ∧
      g'.edges.map dropPsi = g.edges.map dropPsi) ∧
    (fingerprint MemoryConfig.default g').map CaseKey.witnessKind
        = (fingerprint MemoryConfig.default g).map CaseKey.witnessKind ∧
      (promoteCase MemoryConfig.default (fun _ => 0) restedMemory g' 100).2
        = (promoteCase MemoryConfig.default (fun _ => 0) restedMemory g 100).2 := by
  intro args g g'
  obtain ⟨hsame, hcase⟩ := copressure_corroborates numericEstimators args []
  refine ⟨by decide +kernel, hsame, ?_⟩
  exact hcase (witnessFor_shaped floodService "psi_io" _) MemoryConfig.default (fun _ => 0) restedMemory 100

end EdgeCausal
