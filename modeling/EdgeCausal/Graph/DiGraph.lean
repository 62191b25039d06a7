import EdgeCausal.Collections.Dict

/-!
# `Graph.DiGraph` — insertion-ordered directed graphs

A directed graph that keeps one edge per ordered pair of nodes and remembers the order in which nodes
and edges were added: adding an edge twice overwrites its data in place. That every endpoint is a node
is a field.
-/

namespace Lib

universe u v

/-- A directed graph over `V` with edge data `E`. -/
structure DiGraph (V : Type u) (E : Type v) where
  nodes : List V
  edges : Dict (V × V) E
  nodes_nodup : nodes.Nodup
  closed : ∀ p ∈ edges.keys, p.1 ∈ nodes ∧ p.2 ∈ nodes

namespace DiGraph

variable {V : Type u} {E : Type v}

@[ext] theorem ext' {g h : DiGraph V E} (hn : g.nodes = h.nodes) (he : g.edges = h.edges) : g = h := by
  cases g; cases h; cases hn; cases he; rfl

/-- The graph with no node. -/
def empty : DiGraph V E := ⟨[], ∅, List.nodup_nil, by simp⟩

instance : EmptyCollection (DiGraph V E) := ⟨empty⟩

@[simp] theorem nodes_empty : (∅ : DiGraph V E).nodes = [] := rfl
@[simp] theorem edges_empty : (∅ : DiGraph V E).edges = ∅ := rfl

section Ops
variable [DecidableEq V]

/-- Append a node unless it is already there. -/
def addNode (l : List V) (v : V) : List V := if v ∈ l then l else l ++ [v]

theorem mem_addNode {l : List V} {v x : V} : x ∈ addNode l v ↔ x ∈ l ∨ x = v := by
  unfold addNode
  split
  · rename_i h
    exact ⟨Or.inl, fun hx => hx.elim id (fun he => he ▸ h)⟩
  · simp

theorem addNode_nodup {l : List V} (hl : l.Nodup) (v : V) : (addNode l v).Nodup := by
  unfold addNode
  split
  · exact hl
  · rename_i h
    exact List.Nodup.append hl (List.nodup_singleton v) (by simpa using h)

theorem addNode_of_mem {l : List V} {v : V} (h : v ∈ l) : addNode l v = l := if_pos h

/-- Add the edge `u → v`, and its endpoints where they are new; an existing edge is overwritten. -/
def addEdge (g : DiGraph V E) (u v : V) (e : E) : DiGraph V E where
  nodes := addNode (addNode g.nodes u) v
  edges := g.edges.set (u, v) e
  nodes_nodup := addNode_nodup (addNode_nodup g.nodes_nodup u) v
  closed := by
    intro p hp
    simp only [mem_addNode]
    rcases Dict.mem_keys_set.mp hp with rfl | hp
    · simp
    · exact ⟨Or.inl (Or.inl (g.closed p hp).1), Or.inl (Or.inl (g.closed p hp).2)⟩

/-- The successors of `u` with their edge data, in insertion order. -/
def outEdges (g : DiGraph V E) (u : V) : List (V × E) :=
  g.edges.entries.filterMap fun p => if p.1.1 = u then some (p.1.2, p.2) else none

/-- The number of predecessors of `v` (a self-loop counts). -/
def inDegree (g : DiGraph V E) (v : V) : ℕ := g.edges.keys.countP fun p => p.2 = v

/-- The number of edges. -/
def numberOfEdges (g : DiGraph V E) : ℕ := g.edges.entries.length

theorem mem_nodes_addEdge {g : DiGraph V E} {u v x : V} {e : E} :
    x ∈ (g.addEdge u v e).nodes ↔ x ∈ g.nodes ∨ x = u ∨ x = v := by
  simp only [addEdge, mem_addNode, or_assoc]

theorem mem_outEdges {g : DiGraph V E} {u v : V} {e : E} :
    (v, e) ∈ g.outEdges u ↔ g.edges.get? (u, v) = some e := by
  rw [Dict.get?_eq_some_iff]
  unfold outEdges
  rw [List.mem_filterMap]
  constructor
  · rintro ⟨⟨⟨a, b⟩, e'⟩, hm, h⟩
    split at h
    · rename_i ha
      obtain ⟨rfl, rfl⟩ := Prod.mk.inj (Option.some.inj h)
      exact ha ▸ hm
    · exact absurd h (by simp)
  · intro h
    exact ⟨((u, v), e), h, by simp⟩

theorem inDegree_pos_iff {g : DiGraph V E} {v : V} :
    0 < g.inDegree v ↔ ∃ u e, g.edges.get? (u, v) = some e := by
  unfold inDegree
  rw [List.countP_pos_iff]
  constructor
  · rintro ⟨⟨u, w⟩, hk, hw⟩
    have hw' : w = v := by simpa using hw
    obtain ⟨e, he⟩ := Dict.mem_keys_iff_get?.mp hk
    exact ⟨u, e, hw' ▸ he⟩
  · rintro ⟨u, e, he⟩
    exact ⟨(u, v), Dict.mem_keys_iff_get?.mpr ⟨e, he⟩, by simp⟩

/-- The first edge listed that leaves a node is its first out-edge. -/
theorem outEdges_first {g : DiGraph V E} {u v : V} {before after : List (V × V)}
    (h : g.edges.keys = before ++ (u, v) :: after) (hbefore : ∀ p ∈ before, p.1 ≠ u) :
    ∃ e rest, g.outEdges u = (v, e) :: rest := by
  obtain ⟨es, es', hsplit, hes, hes'⟩ := List.map_eq_append_iff.mp h
  obtain ⟨⟨p, e⟩, es'', rfl, hp, -⟩ := List.map_eq_cons_iff.mp hes'
  obtain rfl : p = (u, v) := hp
  have hnil : es.filterMap (fun p => if p.1.1 = u then some (p.1.2, p.2) else none) = [] := by
    rw [List.filterMap_eq_nil_iff]
    intro q hq
    exact if_neg (hbefore q.1 (hes ▸ List.mem_map_of_mem hq))
  refine ⟨e, es''.filterMap fun p => if p.1.1 = u then some (p.1.2, p.2) else none, ?_⟩
  unfold outEdges
  rw [hsplit, List.filterMap_append, hnil, List.nil_append, List.filterMap_cons]
  simp

/-- An out-edge ends at a node with a predecessor. -/
theorem inDegree_pos_of_outEdge {g : DiGraph V E} {u v : V} {e : E} (h : (v, e) ∈ g.outEdges u) :
    0 < g.inDegree v := inDegree_pos_iff.mpr ⟨u, e, mem_outEdges.mp h⟩

end Ops

end DiGraph

end Lib
