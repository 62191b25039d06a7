import EdgeCausal.Collections.Dict
import EdgeCausal.Collections.Inequality
import EdgeCausal.Engine.Types

/-!
# `Api.Fairness` — how evenly a namespace's pods stall

The gateway reports one inequality index a namespace, over the stall of its workloads.
-/

namespace EdgeCausal.Api

open Lib

/-- The index before it is rounded: 0 for no value or no stall. -/
def giniRaw (xs : List ℚ) : ℚ :=
  let xs := sortOn id (xs.filter fun v => 0 ≤ v)
  let n := xs.length
  let s := xs.sum
  if n = 0 ∨ s = 0 then 0 else 2 * rankSum xs / (n * s) - (n + 1) / n

/-- Gini coefficient over per-pod stall: 0 is perfectly fair, towards 1 a few suffer disproportionately. -/
def gini (xs : List ℚ) : ℚ := roundAt 3 (giniRaw xs)

structure FairnessRow where
  ns : String
  gini : ℚ
  workloads : ℕ
deriving DecidableEq

/-- The stalls of each namespace, in the order they come. -/
def stallsByNs (stallByKey : Dict (String × Workload) ℚ) : Dict String (List ℚ) :=
  stallByKey.entries.foldl (fun byNs e => byNs.set e.1.1 ((byNs.get? e.1.1).getD [] ++ [e.2])) ∅

/-- One row a namespace, namespaces in order. -/
def fairness (stallByKey : Dict (String × Workload) ℚ) : List FairnessRow :=
  (sortOn Prod.fst (stallsByNs stallByKey).entries).map fun e => ⟨e.1, gini e.2, e.2.length⟩

end EdgeCausal.Api
