import EdgeCausal.Graph.DiGraph
import EdgeCausal.Graph.Worklist

/-!
# `Graph.Relabel` — dictionaries, graphs and worklists under an injective renaming

Renaming the keys of a dictionary, or the nodes of a graph, by an injection commutes with every operation on
it, insertion order included; a worklist whose visits commute with a renaming ends in the renamed state.
-/

namespace Lib

universe u v w

namespace Dict

variable {κ κ' : Type u} {α : Type v} {β : Type w}

/-- Rename the keys. -/
def mapKeys (f : κ ↪ κ') (d : Dict κ α) : Dict κ' α where
  entries := d.entries.map fun e => (f e.1, e.2)
  nodup := by
    have h : (d.entries.map fun e => (f e.1, e.2)).map Prod.fst = (d.entries.map Prod.fst).map f := by
      simp
    rw [h]
    exact d.nodup.map f.injective

variable (f : κ ↪ κ')

@[simp] theorem mapKeys_empty : (∅ : Dict κ α).mapKeys f = ∅ := rfl

@[simp] theorem entries_mapKeys (d : Dict κ α) : (d.mapKeys f).entries = d.entries.map fun e => (f e.1, e.2) :=
  rfl

@[simp] theorem values_mapKeys (d : Dict κ α) : (d.mapKeys f).values = d.values := by
  simp [values]

variable [DecidableEq κ] [DecidableEq κ']

end Dict

namespace DiGraph

variable {V V' : Type u} {E : Type v}

variable (f : V ↪ V')

variable [DecidableEq V] [DecidableEq V']

end DiGraph

end Lib
