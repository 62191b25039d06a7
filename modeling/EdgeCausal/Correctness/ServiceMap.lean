import EdgeCausal.Api.Topology

/-!
# `Correctness.ServiceMap` — one edge a pair

The map is built series by series; stored bytes are rounded, and compared with bytes that are not. It comes to the
largest count of each pair nonetheless, and to nothing but the pairs observed (`topology_exact`).
-/

namespace EdgeCausal.Api

open Lib

section Map
variable {nsStart : String} {s : PromSeries} {e old : CarettaEdge}

/-- What a series must be like to count. -/
theorem carettaEdge_eq_some (h : carettaEdge nsStart s = some e) :
    e.src ≠ "" ∧ e.dst ≠ "" ∧ e.src ≠ e.dst ∧ nsStart.toList <+: e.srcNs.toList ∧
      nsStart.toList <+: e.dstNs.toList ∧ e.bytes = roundHalfEven (observed s) := by
  unfold carettaEdge at h
  dsimp only at h
  split at h
  · exact absurd h (by simp)
  rename_i hnames
  split at h
  · rename_i hns
    obtain rfl := Option.some.inj h
    simp only [not_or] at hnames
    simp only [List.isPrefixOf_iff_prefix] at hns
    exact ⟨hnames.1, hnames.2.1, hnames.2.2, hns.1, hns.2, rfl⟩
  · exact absurd h (by simp)

variable (nsStart) in
/-- The entry of a pair after some series: the edge of one of them, and the largest. -/
def Largest (l : List PromSeries) (p : Workload × Workload) : Option CarettaEdge → Prop
  | none => ∀ s ∈ l, ∀ e, carettaEdge nsStart s = some e → e.pair ≠ p
  | some top => (∃ s ∈ l, carettaEdge nsStart s = some top) ∧ top.pair = p ∧
      ∀ s ∈ l, ∀ e, carettaEdge nsStart s = some e → e.pair = p → e.bytes ≤ top.bytes

/-- Bytes that are more than a whole number are, rounded, at least as many. -/
theorem bytes_cases (h : carettaEdge nsStart s = some e) (old : CarettaEdge) :
    ((old.bytes : ℚ) < observed s → old.bytes ≤ e.bytes) ∧ (¬ (old.bytes : ℚ) < observed s → e.bytes ≤ old.bytes) := by
  obtain ⟨-, -, -, -, -, hbytes⟩ := carettaEdge_eq_some h
  have hold : roundHalfEven (old.bytes : ℚ) = old.bytes := roundHalfEven_intCast old.bytes
  rw [hbytes]
  constructor
  · intro hlt
    rw [← hold]
    exact roundHalfEven_mono hlt.le
  · intro hle
    rw [← hold]
    exact roundHalfEven_mono (not_lt.mp hle)

/-- A series of another pair, or of none, leaves the entry as it is. -/
theorem Largest.append_of_ne {l : List PromSeries} {p : Workload × Workload} {entry : Option CarettaEdge}
    (h : Largest nsStart l p entry) (hs : ∀ e, carettaEdge nsStart s = some e → e.pair ≠ p) :
    Largest nsStart (l ++ [s]) p entry := by
  cases entry with
  | none =>
      intro x hx e he
      rcases List.mem_append.mp hx with hx | hx
      · exact h x hx e he
      · exact hs e (List.mem_singleton.mp hx ▸ he)
  | some top =>
      obtain ⟨⟨x, hx, hxe⟩, hpair, hmax⟩ := h
      refine ⟨⟨x, List.mem_append_left _ hx, hxe⟩, hpair, ?_⟩
      intro y hy e he hep
      rcases List.mem_append.mp hy with hy | hy
      · exact hmax y hy e he hep
      · exact absurd hep (hs e (List.mem_singleton.mp hy ▸ he))

/-- The entry of a pair after an edge of the pair. -/
def taken (s : PromSeries) (e : CarettaEdge) (entry : Option CarettaEdge) : CarettaEdge :=
  match entry with
  | none => e
  | some old => if (old.bytes : ℚ) < observed s then e else old

/-- A series of the pair: its edge takes the entry when there is none or fewer bytes are stored. -/
theorem Largest.append_of_eq {l : List PromSeries} {entry : Option CarettaEdge}
    (h : Largest nsStart l e.pair entry) (he : carettaEdge nsStart s = some e) :
    Largest nsStart (l ++ [s]) e.pair (some (taken s e entry)) := by
  have hself : ∀ e', carettaEdge nsStart s = some e' → e' = e := fun e' he' => Option.some.inj (he'.symm.trans he)
  cases entry with
  | none =>
      refine ⟨⟨s, by simp, he⟩, rfl, ?_⟩
      intro y hy e' he' hpair
      rcases List.mem_append.mp hy with hy | hy
      · exact absurd hpair (h y hy e' he')
      · rw [hself e' (List.mem_singleton.mp hy ▸ he')]
        exact le_rfl
  | some old =>
      obtain ⟨⟨x, hx, hxe⟩, hpair, hmax⟩ := h
      obtain ⟨hmore, hless⟩ := bytes_cases he old
      unfold taken
      dsimp only
      split
      · rename_i hlt
        refine ⟨⟨s, by simp, he⟩, rfl, ?_⟩
        intro y hy e' he' hpair'
        rcases List.mem_append.mp hy with hy | hy
        · exact (hmax y hy e' he' hpair').trans (hmore hlt)
        · rw [hself e' (List.mem_singleton.mp hy ▸ he')]
      · rename_i hle
        refine ⟨⟨x, List.mem_append_left _ hx, hxe⟩, hpair, ?_⟩
        intro y hy e' he' hpair'
        rcases List.mem_append.mp hy with hy | hy
        · exact hmax y hy e' he' hpair'
        · rw [hself e' (List.mem_singleton.mp hy ▸ he')]
          exact hless hle

/-- What a series does to an entry. -/
theorem get?_keepLargest (best : Dict (Workload × Workload) CarettaEdge) (s : PromSeries) (p : Workload × Workload) :
    (∃ e, carettaEdge nsStart s = some e ∧ e.pair = p ∧
      (keepLargest nsStart best s).get? p = some (taken s e (best.get? p))) ∨
    ((∀ e, carettaEdge nsStart s = some e → e.pair ≠ p) ∧ (keepLargest nsStart best s).get? p = best.get? p) := by
  unfold keepLargest
  cases he : carettaEdge nsStart s with
  | none => exact Or.inr ⟨fun e h => absurd h (by simp), rfl⟩
  | some e =>
      dsimp only
      by_cases hp : e.pair = p
      · subst hp
        refine Or.inl ⟨e, rfl, rfl, ?_⟩
        have hset : (best.set e.pair e).get? e.pair = some e := by
          rw [Dict.get?_set, if_pos rfl]
        unfold taken
        cases hold : best.get? e.pair with
        | none => exact hset
        | some old =>
            dsimp only
            split
            · exact hset
            · exact hold
      · refine Or.inr ⟨fun e' h => Option.some.inj h ▸ hp, ?_⟩
        have hset : ∀ x, (best.set e.pair x).get? p = best.get? p := fun x => by
          rw [Dict.get?_set, if_neg (Ne.symm hp)]
        split
        · exact hset e
        · split
          · exact hset e
          · rfl

/-- **The entry of every pair is its largest.** -/
theorem largest_foldl (result : List PromSeries) (p : Workload × Workload) :
    Largest nsStart result p ((result.foldl (keepLargest nsStart) ∅).get? p) := by
  induction result using List.reverseRecOn generalizing p with
  | nil => exact fun x hx => absurd hx List.not_mem_nil
  | append_singleton l s ih =>
      rw [List.foldl_append, List.foldl_cons, List.foldl_nil]
      rcases get?_keepLargest (l.foldl (keepLargest nsStart) ∅) s p with ⟨e, he, rfl, hget⟩ | ⟨hne, hget⟩
      · rw [hget]
        exact (ih e.pair).append_of_eq he
      · rw [hget]
        exact (ih p).append_of_ne hne

end Map

/-- **The service map is exact.** Whatever series come back, their bytes finite: there is an edge between two workloads
    exactly when a series speaks of one, and one only; it is that of one of their series, with the most bytes of all of
    them; its ends are different workloads of the factory; and the busiest edges come first. -/
theorem topology_exact (result : List PromSeries) :
    let edges := (carettaTopology (.ok result)).edges
    (∀ p, (∃ e ∈ edges, e.pair = p) ↔ ∃ s ∈ result, ∃ e, carettaEdge "factory" s = some e ∧ e.pair = p) ∧
    (edges.map CarettaEdge.pair).Nodup ∧
    (∀ e ∈ edges, (∃ s ∈ result, carettaEdge "factory" s = some e) ∧
      (∀ s ∈ result, ∀ e', carettaEdge "factory" s = some e' → e'.pair = e.pair → e'.bytes ≤ e.bytes) ∧
      e.src ≠ e.dst ∧ "factory".toList <+: e.srcNs.toList ∧ "factory".toList <+: e.dstNs.toList) ∧
    edges.Pairwise fun a b => b.bytes ≤ a.bytes := by
  intro edges
  set best := result.foldl (keepLargest "factory") ∅ with hbest
  have hentry : ∀ p, Largest "factory" result p (best.get? p) := fun p => largest_foldl result p
  have hmem : ∀ e, e ∈ edges ↔ ∃ p, best.get? p = some e := by
    intro e
    show e ∈ sortOn _ best.values ↔ _
    rw [mem_sortOn, Dict.mem_values_iff_get?]
  have hpair : ∀ p e, best.get? p = some e → e.pair = p := by
    intro p e he
    have h := hentry p
    rw [he] at h
    exact h.2.1
  refine ⟨?_, ?_, ?_, ?_⟩
  · intro p
    constructor
    · rintro ⟨e, he, rfl⟩
      obtain ⟨p, hp⟩ := (hmem e).mp he
      have h := hentry p
      rw [hp] at h
      obtain ⟨s, hs, hse⟩ := h.1
      exact ⟨s, hs, e, hse, rfl⟩
    · rintro ⟨s, hs, e, hse, hep⟩
      cases hp : best.get? p with
      | none =>
          have h := hentry p
          rw [hp] at h
          exact absurd hep (h s hs e hse)
      | some top => exact ⟨top, (hmem top).mpr ⟨p, hp⟩, hpair p top hp⟩
  · have hperm : (edges.map CarettaEdge.pair).Perm (best.values.map CarettaEdge.pair) :=
      (sortOn_perm _ best.values).map _
    rw [hperm.nodup_iff, Dict.values_map_eq_keys hpair]
    exact best.nodup
  · intro e he
    obtain ⟨p, hp⟩ := (hmem e).mp he
    have h := hentry p
    rw [hp] at h
    obtain ⟨⟨s, hs, hse⟩, rfl, hmax⟩ := h
    obtain ⟨-, -, hne, hsrc, hdst, -⟩ := carettaEdge_eq_some hse
    exact ⟨⟨s, hs, hse⟩, hmax, hne, hsrc, hdst⟩
  · refine (sortOn_pairwise _ best.values).imp ?_
    intro a b hle
    exact neg_le_neg_iff.mp hle

end EdgeCausal.Api
