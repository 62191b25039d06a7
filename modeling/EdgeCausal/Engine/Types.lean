import EdgeCausal.Collections.Extremum
import EdgeCausal.Collections.OrderStat
import EdgeCausal.Graph.DiGraph

/-!
# `Engine.Types` — the data of the correlation engine

Names, samples, edges, findings and the graph a correlation pass returns. Samples, scores and
confidences are exact rationals; a signal vector is the list of its samples.
-/

namespace EdgeCausal

open Lib

/-- A pod name; new after every restart. -/
abbrev Pod := String

/-- A workload name; stable across restarts. -/
abbrev Workload := String

/-- A resource signal (`psi_io`, `psi_cpu`, `psi_mem`). -/
abbrev Signal := String

/-- A signal vector, oldest sample first. -/
abbrev Series := List ℚ

/-- Drop the ReplicaSet and pod suffixes: `cooling-monitor-abc123-xyz` becomes `cooling-monitor`. -/
def stableWorkload (pod : Pod) : Workload :=
  let parts := pod.toList.splitOn '-'
  if 2 < parts.length then
    String.ofList (List.intercalate ['-'] (parts.take (parts.length - 2)))
  else pod

example : stableWorkload "cooling-monitor-abc123-def45" = "cooling-monitor" := by decide +kernel

/-- The key of the unordered pair `{a, b}`. -/
def frozenPair (a b : String) : String × String := if a ≤ b then (a, b) else (b, a)

theorem frozenPair_comm (a b : String) : frozenPair a b = frozenPair b a := by
  unfold frozenPair
  rcases lt_trichotomy a b with h | h | h
  · rw [if_pos h.le, if_neg (not_le.mpr h)]
  · rw [h]
  · rw [if_neg (not_le.mpr h), if_pos h.le]

theorem frozenPair_eq_iff {a b c d : String} :
    frozenPair a b = frozenPair c d ↔ (a = c ∧ b = d) ∨ (a = d ∧ b = c) := by
  constructor
  · intro h
    unfold frozenPair at h
    split at h <;> split at h <;> obtain ⟨h1, h2⟩ := Prod.mk.inj h
    · exact Or.inl ⟨h1, h2⟩
    · exact Or.inr ⟨h1, h2⟩
    · exact Or.inr ⟨h2, h1⟩
    · exact Or.inl ⟨h2, h1⟩
  · rintro (⟨rfl, rfl⟩ | ⟨rfl, rfl⟩)
    · rfl
    · exact frozenPair_comm a b

/-- The tokens an edge cites as evidence. -/
inductive Evidence where
  | stat | write | ebpf | psi | pvc | node | temporal
deriving DecidableEq, Repr

/-- The token as it is stored and served. -/
def Evidence.token : Evidence → String
  | .stat => "stat"
  | .write => "write"
  | .ebpf => "ebpf"
  | .psi => "psi"
  | .pvc => "pvc"
  | .node => "node"
  | .temporal => "temporal"

/-- A directed edge accepted by a pass. -/
structure Edge where
  src : Pod
  dst : Pod
  r : ℚ
  lagS : ℕ
  evidence : List Evidence
deriving DecidableEq, Repr

/-- The post-onset shape of a signal. -/
inductive Shape where
  | saturation | burst | leak | flap | shift
deriving DecidableEq, Repr

/-- An anomalous pod. -/
structure Finding where
  pod : Pod
  shape : Shape
  onsetS : ℚ
  severity : ℚ
  nOnsets : ℕ
deriving DecidableEq, Repr

/-- One line of the root-cause ranking. -/
structure RankEntry where
  pod : Pod
  score : ℚ
  onsetS : Option ℚ
deriving DecidableEq, Repr

/-- One predicted victim. -/
structure BlastEntry where
  pod : Pod
  impact : ℚ
  etaS : ℕ
deriving DecidableEq, Repr

/-- What one correlation pass returns. -/
structure CausalGraph where
  findings : List Finding
  edges : List Edge
  rootCauseRanking : List RankEntry
  blastRadius : List BlastEntry
  pods : ℕ
  active : ℕ
  acceptedEdges : ℕ
deriving DecidableEq

/-- The last `n` elements (`l[-n:]` for `n ≥ 1`). -/
def lastN {α : Type} (n : ℕ) (l : List α) : List α := l.drop (l.length - n)

/-- `l[lo:lo + len]`. -/
def slice {α : Type} (lo len : ℕ) (l : List α) : List α := (l.drop lo).take len

theorem mem_of_mem_lastN {α : Type} {n : ℕ} {l : List α} {x : α} (h : x ∈ lastN n l) : x ∈ l :=
  List.mem_of_mem_drop h

theorem lastN_ne_nil {α : Type} {n : ℕ} {l : List α} (hn : n ≠ 0) (hl : l ≠ []) : lastN n l ≠ [] := by
  have hpos : 0 < l.length := List.length_pos_iff.mpr hl
  have hlen : (lastN n l).length ≠ 0 := by
    unfold lastN; rw [List.length_drop]; omega
  exact fun h => hlen (by rw [h]; rfl)

end EdgeCausal
