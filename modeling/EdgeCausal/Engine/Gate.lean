import EdgeCausal.Engine.LagCorr

/-!
# `Engine.Gate` — the evidence acceptance gate

An edge enters the causal graph only if three clauses hold: the correlation is strong at its peak and
elevated at an adjacent lag; the two pods share a real resource; and, where both onsets are known, the
source's precedes the target's.
-/

namespace EdgeCausal

open Lib

def rPeak : ℚ := 6 / 10
def rAdj : ℚ := 4 / 10
/-- Slack on onset ordering, seconds. -/
def temporalTolS : ℚ := 10

/-- The relations that admit a bare correlation edge. -/
def couplingKinds : List Evidence := [.ebpf, .pvc]
/-- The relations that admit a source-attributed edge. -/
def sourceCouplingKinds : List Evidence := [.ebpf, .pvc, .node]

/-- The physical relations known to the topology agent. The eBPF edges are directed; the other three
    relations are sets of unordered pairs, each listed in one of its two orders. -/
structure Witness where
  ebpfEdges : List (Pod × Pod)
  psiCopressure : List (Pod × Pod)
  sharedRelation : List (Pod × Pod)
  sameNode : List (Pod × Pod)
deriving DecidableEq

/-- The unordered pair `{a, b}` is in the relation. -/
def relates (rel : List (Pod × Pod)) (a b : Pod) : Bool := (a, b) ∈ rel ∨ (b, a) ∈ rel

theorem relates_comm (rel : List (Pod × Pod)) (a b : Pod) : relates rel a b = relates rel b a := by
  unfold relates
  exact decide_eq_decide.mpr or_comm

namespace Witness

/-- Every relation the pair is in. -/
def kinds (w : Witness) (src dst : Pod) : List Evidence :=
  (if relates w.ebpfEdges src dst then [.ebpf] else []) ++
  (if relates w.psiCopressure src dst then [.psi] else []) ++
  (if relates w.sharedRelation src dst then [.pvc] else []) ++
  (if relates w.sameNode src dst then [.node] else [])

/-- The pair shares a disk or a network dependency. -/
def couples (w : Witness) (src dst : Pod) : Bool := (w.kinds src dst).any (· ∈ couplingKinds)

/-- The pair shares a disk, a network dependency or a node. -/
def couplesSource (w : Witness) (src dst : Pod) : Bool :=
  (w.kinds src dst).any (· ∈ sourceCouplingKinds)

theorem kinds_comm (w : Witness) (a b : Pod) : w.kinds a b = w.kinds b a := by
  simp only [kinds, relates_comm _ a b]

theorem couples_comm (w : Witness) (a b : Pod) : w.couples a b = w.couples b a := by
  unfold couples; rw [kinds_comm]

theorem couplesSource_comm (w : Witness) (a b : Pod) : w.couplesSource a b = w.couplesSource b a := by
  unfold couplesSource; rw [kinds_comm]

/-- Each token is in `kinds` exactly when its relation holds. -/
theorem mem_kinds {w : Witness} {a b : Pod} {k : Evidence} :
    k ∈ w.kinds a b ↔
      (k = .ebpf ∧ relates w.ebpfEdges a b) ∨ (k = .psi ∧ relates w.psiCopressure a b) ∨
      (k = .pvc ∧ relates w.sharedRelation a b) ∨ (k = .node ∧ relates w.sameNode a b) := by
  unfold kinds
  cases relates w.ebpfEdges a b <;> cases relates w.psiCopressure a b <;>
    cases relates w.sharedRelation a b <;> cases relates w.sameNode a b <;> simp

theorem couples_iff {w : Witness} {a b : Pod} :
    w.couples a b = true ↔ relates w.ebpfEdges a b ∨ relates w.sharedRelation a b := by
  unfold couples kinds
  cases relates w.ebpfEdges a b <;> cases relates w.psiCopressure a b <;>
    cases relates w.sharedRelation a b <;> cases relates w.sameNode a b <;> decide

theorem couplesSource_iff {w : Witness} {a b : Pod} :
    w.couplesSource a b = true ↔
      relates w.ebpfEdges a b ∨ relates w.sharedRelation a b ∨ relates w.sameNode a b := by
  unfold couplesSource kinds
  cases relates w.ebpfEdges a b <;> cases relates w.psiCopressure a b <;>
    cases relates w.sharedRelation a b <;> cases relates w.sameNode a b <;> decide

end Witness

/-- `["temporal"]` when both onsets are known. -/
def temporalTag (tSrc tDst : Option ℚ) : List Evidence :=
  if tSrc.isSome ∧ tDst.isSome then [.temporal] else []

/-- Clause 3, checkable only when both onsets exist: the source does not start after the target by more
    than the tolerance, and at a positive lag the two are not too far apart for that lag. -/
def temporalOk (tSrc tDst : Option ℚ) (lagS : ℕ) : Bool :=
  match tSrc, tDst with
  | some ts, some td =>
      if ts > td + temporalTolS then false
      else if 0 < lagS ∧ td - ts > 4 * lagS + temporalTolS then false
      else true
  | _, _ => true

/-- The three-clause gate. -/
def acceptEdge (src dst : Pod) (r : ℚ) (lagS : ℕ) (profile : Dict ℕ ℚ) (w : Witness)
    (onsetS : Dict Pod ℚ) : Option Edge :=
  if r < rPeak ∨ adjacentSupport profile lagS rAdj = false then none
  else
    let kinds := w.kinds src dst
    if kinds.any (· ∈ couplingKinds) = false then none
    else
      let tSrc := onsetS.get? src
      let tDst := onsetS.get? dst
      if temporalOk tSrc tDst lagS = false then none
      else some ⟨src, dst, roundAt 3 r, lagS, [.stat] ++ kinds ++ temporalTag tSrc tDst⟩

end EdgeCausal
