import EdgeCausal.Collections.Dict
import EdgeCausal.Graph.Worklist
import Mathlib.Algebra.Order.Ring.Defs
import Mathlib.Tactic.Ring

/-!
# `Graph.BestWalk` — the best product over walks, by a worklist

Every edge of a graph carries a gain; a walk is worth the product of the gains of its edges. A worklist keeps
the best worth found so far at each node, drops what falls below a threshold and queues every improvement.
When its queue has run dry and no gain exceeds 1, it has found the best of all walks that stay above the
threshold (`Swept.le_best`), and nothing else (`Swept.sound`).
-/

namespace Lib

universe u v

variable {V : Type u} {K : Type v} [CommRing K]

/-! ## Walks -/

/-- A walk from `root` to a node and the product of its gains; `out` lists the edges that leave a node. -/
inductive GainWalk (out : V → List (V × K)) (root : V) : V → K → Prop where
  | start : GainWalk out root root 1
  | step {v : V} {w : K} {o : V × K} (h : GainWalk out root v w)
    (ho : o ∈ out v) : GainWalk out root o.1 (w * o.2)

/-- A walk of at least one edge. -/
def GainReach (out : V → List (V × K)) (root v : V) (w : K) : Prop :=
  ∃ u x o, GainWalk out root u x ∧ o ∈ out u ∧ o.1 = v ∧ x * o.2 = w

section Walks
variable {out out' : V → List (V × K)} {root u v : V} {w x : K}

theorem GainReach.walk (h : GainReach out root v w) : GainWalk out root v w := by
  obtain ⟨u, x, o, hwalk, ho, rfl, rfl⟩ := h
  exact GainWalk.step hwalk ho

theorem GainWalk.trans (h : GainWalk out root u x) (h' : GainWalk out u v w) : GainWalk out root v (x * w) := by
  induction h' with
  | start =>
      rw [mul_one]
      exact h
  | step _ ho ih =>
      rw [← mul_assoc]
      exact GainWalk.step ih ho

theorem GainWalk.trans_reach (h : GainWalk out root u x) (h' : GainReach out u v w) :
    GainReach out root v (x * w) := by
  obtain ⟨u', y, o, hwalk, ho, rfl, rfl⟩ := h'
  exact ⟨u', x * y, o, h.trans hwalk, ho, rfl, mul_assoc x y o.2⟩

variable [LinearOrder K] [IsStrictOrderedRing K]

theorem GainWalk.nonneg (hout : ∀ n, ∀ o ∈ out n, 0 ≤ o.2) (h : GainWalk out root v w) : 0 ≤ w := by
  induction h with
  | start => exact zero_le_one
  | step _ ho ih => exact mul_nonneg ih (hout _ _ ho)

theorem GainWalk.le_one (hout : ∀ n, ∀ o ∈ out n, 0 ≤ o.2 ∧ o.2 ≤ 1) (h : GainWalk out root v w) : w ≤ 1 := by
  induction h with
  | start => exact le_rfl
  | step _ ho ih => exact mul_le_one₀ ih (hout _ _ ho).1 (hout _ _ ho).2

/-- **Simulation of walks.** When every edge that can matter is matched by a walk worth at least as much, so is
    every walk that stays above the threshold. -/
theorem GainReach.simulate {cut : K} (hout : ∀ n, ∀ o ∈ out n, 0 ≤ o.2 ∧ o.2 ≤ 1)
    (hmatch : ∀ n, ∀ o ∈ out n, cut ≤ o.2 → ∃ y, o.2 ≤ y ∧ GainReach out' n o.1 y)
    (h : GainReach out root v w) (hw : cut ≤ w) : ∃ y, w ≤ y ∧ GainReach out' root v y := by
  obtain ⟨u, x, o, hwalk, ho, rfl, rfl⟩ := h
  have hbound := hout u o ho
  have hx : 0 ≤ x := hwalk.nonneg fun n o ho => (hout n o ho).1
  have hlast : ∀ {y : K}, x ≤ y → GainWalk out' root u y → ∃ z, x * o.2 ≤ z ∧ GainReach out' root o.1 z := by
    intro y hy hwalk'
    have hone : x * o.2 ≤ o.2 := mul_le_of_le_one_left hbound.1 (hwalk.le_one hout)
    obtain ⟨z, hz, hreach⟩ := hmatch u o ho (hw.trans hone)
    refine ⟨y * z, ?_, hwalk'.trans_reach hreach⟩
    exact mul_le_mul hy hz hbound.1 (hx.trans hy)
  have hprefix : ∀ {u x}, GainWalk out root u x → cut ≤ x → ∃ y, x ≤ y ∧ GainWalk out' root u y := by
    intro u x hwalk
    induction hwalk with
    | start => exact fun _ => ⟨1, le_rfl, GainWalk.start⟩
    | @step u x o hwalk ho ih =>
        intro hcut
        have hx : 0 ≤ x := hwalk.nonneg fun n o ho => (hout n o ho).1
        obtain ⟨y, hy, hwalk'⟩ := ih (hcut.trans (mul_le_of_le_one_right hx (hout u o ho).2))
        have hone : x * o.2 ≤ o.2 := mul_le_of_le_one_left (hout u o ho).1 (hwalk.le_one hout)
        obtain ⟨z, hz, hreach⟩ := hmatch u o ho (hcut.trans hone)
        refine ⟨y * z, mul_le_mul hy hz (hout u o ho).1 (hx.trans hy), ?_⟩
        exact (hwalk'.trans_reach hreach).walk
  obtain ⟨y, hy, hwalk'⟩ := hprefix hwalk (hw.trans (mul_le_of_le_one_right hx hbound.2))
  exact hlast hy hwalk'

end Walks

/-! ## One visit -/

variable [DecidableEq V] [LinearOrder K]

/-- Try to improve the best worth of one successor of a node of worth `w`; an improvement is queued. -/
def improve (cut w : K) (s : Dict V K × List (V × K)) (o : V × K) : Dict V K × List (V × K) :=
  if w * o.2 < cut ∨ w * o.2 ≤ (s.1.get? o.1).getD 0 then s
  else (s.1.set o.1 (w * o.2), s.2 ++ [(o.1, w * o.2)])

/-- Visit a queue entry: improve all its successors. -/
def propagate (out : V → List (V × K)) (cut : K) (entry : V × K) (best : Dict V K) : Dict V K × List (V × K) :=
  (out entry.1).foldl (improve cut entry.2) (best, [])

section Visit
variable {out : V → List (V × K)} {cut w : K} {s : Dict V K × List (V × K)} {os : List (V × K)} {v : V}

theorem improve_grows (cut w : K) (o : V × K) {x : K} (h : s.1.get? v = some x) :
    ∃ y, (improve cut w s o).1.get? v = some y ∧ x ≤ y := by
  unfold improve
  split
  · exact ⟨x, h, le_rfl⟩
  · rename_i hnew
    rw [not_or, not_le] at hnew
    dsimp only
    rw [Dict.get?_set]
    by_cases hv : v = o.1
    · subst hv
      rw [h] at hnew
      exact ⟨w * o.2, if_pos rfl, hnew.2.le⟩
    · exact ⟨x, by rw [if_neg hv]; exact h, le_rfl⟩

/-- No worth is lost. -/
theorem foldl_improve_grows (cut w : K) (os : List (V × K)) {x : K} (h : s.1.get? v = some x) :
    ∃ y, (os.foldl (improve cut w) s).1.get? v = some y ∧ x ≤ y := by
  induction os generalizing s x with
  | nil => exact ⟨x, h, le_rfl⟩
  | cons o os ih =>
      obtain ⟨y, hy, hxy⟩ := improve_grows cut w o h
      obtain ⟨z, hz, hyz⟩ := ih hy
      exact ⟨z, hz, hxy.trans hyz⟩

/-- A worth that changed is queued, and so is everything that was. -/
theorem foldl_improve_queues (cut w : K) (os : List (V × K)) (s : Dict V K × List (V × K)) :
    s.2 ⊆ (os.foldl (improve cut w) s).2 ∧ ∀ v x, (os.foldl (improve cut w) s).1.get? v = some x →
      s.1.get? v = some x ∨ (v, x) ∈ (os.foldl (improve cut w) s).2 := by
  induction os generalizing s with
  | nil => exact ⟨List.Subset.refl _, fun v x h => Or.inl h⟩
  | cons o os ih =>
      obtain ⟨hsub, hnew⟩ := ih (improve cut w s o)
      have hone : s.2 ⊆ (improve cut w s o).2 ∧ ∀ v x, (improve cut w s o).1.get? v = some x →
          s.1.get? v = some x ∨ (v, x) ∈ (improve cut w s o).2 := by
        unfold improve
        split
        · exact ⟨List.Subset.refl _, fun v x h => Or.inl h⟩
        · refine ⟨List.subset_append_left _ _, ?_⟩
          intro v x h
          dsimp only at h ⊢
          rw [Dict.get?_set] at h
          split at h
          · rename_i hv
            obtain rfl := Option.some.inj h
            exact Or.inr (List.mem_append_right _ (by rw [hv]; exact List.mem_singleton_self _))
          · exact Or.inl h
      refine ⟨fun o ho => hsub (hone.1 ho), ?_⟩
      intro v x h
      rcases hnew v x h with h | h
      · exact (hone.2 v x h).imp_right fun hmem => hsub hmem
      · exact Or.inr h

/-- The successor just tried is worth at least what the edge makes of `w`. -/
theorem improve_reaches (hcut : 0 < cut) {o : V × K} (ho : cut ≤ w * o.2) :
    ∃ y, (improve cut w s o).1.get? o.1 = some y ∧ w * o.2 ≤ y := by
  unfold improve
  split
  · rename_i hold
    have hle := hold.resolve_left (not_lt.mpr ho)
    cases hget : s.1.get? o.1 with
    | none =>
        rw [hget] at hle
        exact absurd (hcut.trans_le ho) (not_lt.mpr hle)
    | some y =>
        rw [hget] at hle
        exact ⟨y, rfl, hle⟩
  · exact ⟨w * o.2, by dsimp only; rw [Dict.get?_set, if_pos rfl], le_rfl⟩

/-- Every successor has been offered what its edge makes of the worth `w` of `v`. -/
def Closed (out : V → List (V × K)) (cut : K) (best : Dict V K) (v : V) (w : K) : Prop :=
  ∀ o ∈ out v, cut ≤ w * o.2 → ∃ y, best.get? o.1 = some y ∧ w * o.2 ≤ y

theorem propagate_closed (hcut : 0 < cut) (entry : V × K) (best : Dict V K) :
    Closed out cut (propagate out cut entry best).1 entry.1 entry.2 := by
  intro o ho hworth
  obtain ⟨before, after, heq⟩ := List.append_of_mem ho
  unfold propagate
  rw [heq, List.foldl_append, List.foldl_cons]
  obtain ⟨y, hy, hle⟩ := improve_reaches (s := before.foldl (improve cut entry.2) (best, [])) hcut hworth
  obtain ⟨z, hz, hyz⟩ := foldl_improve_grows cut entry.2 after hy
  exact ⟨z, hz, hle.trans hyz⟩

theorem Closed.propagate {best : Dict V K} (h : Closed out cut best v w) (entry : V × K) :
    Closed out cut (propagate out cut entry best).1 v w := by
  intro o ho hworth
  obtain ⟨y, hy, hle⟩ := h o ho hworth
  obtain ⟨z, hz, hyz⟩ := foldl_improve_grows (s := (best, [])) cut entry.2 (out entry.1) hy
  exact ⟨z, hz, hle.trans hyz⟩

/-- What a visit queues or stores was stored before, or is worth an edge from the entry. -/
theorem mem_propagate (out : V → List (V × K)) (cut : K) (entry : V × K) (best : Dict V K) :
    (∀ o ∈ (propagate out cut entry best).2, cut ≤ o.2 ∧ ∃ c, (o.1, c) ∈ out entry.1 ∧ entry.2 * c = o.2) ∧
      ∀ v x, (propagate out cut entry best).1.get? v = some x →
        best.get? v = some x ∨ (v, x) ∈ (propagate out cut entry best).2 := by
  constructor
  · unfold propagate
    refine List.foldlRecOn (motive := fun s : Dict V K × List (V × K) =>
      ∀ o ∈ s.2, cut ≤ o.2 ∧ ∃ c, (o.1, c) ∈ out entry.1 ∧ entry.2 * c = o.2) _ _ (by simp) ?_
    intro s hs o ho new hnew
    unfold improve at hnew
    split at hnew
    · exact hs new hnew
    · rename_i hworth
      rw [not_or, not_lt] at hworth
      rcases List.mem_append.mp hnew with hnew | hnew
      · exact hs new hnew
      · obtain rfl := List.mem_singleton.mp hnew
        exact ⟨hworth.1, o.2, ho, rfl⟩
  · intro v x h
    exact (foldl_improve_queues cut entry.2 (out entry.1) (best, [])).2 v x h

end Visit

/-! ## The sweep -/

/-- The state of a sweep from `root`: whatever is stored is worth a walk and either queued or closed, whatever
    is queued is worth a walk, and the root has been visited unless it is queued. -/
structure Swept (out : V → List (V × K)) (cut : K) (root : V) (queue : List (V × K))
    (best : Dict V K) : Prop where
  start : (root, 1) ∈ queue ∨ Closed out cut best root 1
  done : ∀ v w, best.get? v = some w → (v, w) ∈ queue ∨ Closed out cut best v w
  queued : ∀ o ∈ queue, GainWalk out root o.1 o.2
  stored : ∀ v w, best.get? v = some w → cut ≤ w ∧ GainReach out root v w

section Sweep
variable {out : V → List (V × K)} {cut : K} {root v : V} {w : K} {best : Dict V K} {queue : List (V × K)}

theorem Swept.init (out : V → List (V × K)) (cut : K) (root : V) : Swept out cut root [(root, 1)] ∅ := by
  refine ⟨Or.inl (List.mem_singleton_self _), ?_, ?_, ?_⟩
  · intro v w h
    exact absurd h (by simp)
  · intro o ho
    obtain rfl := List.mem_singleton.mp ho
    exact GainWalk.start
  · intro v w h
    exact absurd h (by simp)

/-- One visit. -/
theorem Swept.visit (hcut : 0 < cut) {entry : V × K} (h : Swept out cut root (entry :: queue) best) :
    Swept out cut root (queue ++ (propagate out cut entry best).2) (propagate out cut entry best).1 := by
  obtain ⟨hqueued, hstored⟩ := mem_propagate out cut entry best
  have hentry : GainWalk out root entry.1 entry.2 := h.queued entry List.mem_cons_self
  -- the popped entry is closed by its visit, whoever was closed stays closed
  have hpopped : ∀ v w, (v, w) ∈ entry :: queue ∨ Closed out cut best v w →
      (v, w) ∈ queue ++ (propagate out cut entry best).2 ∨
          Closed out cut (propagate out cut entry best).1 v w := by
    rintro v w (hmem | hclosed)
    · rcases List.mem_cons.mp hmem with rfl | hmem
      · exact Or.inr (propagate_closed hcut (v, w) best)
      · exact Or.inl (List.mem_append_left _ hmem)
    · exact Or.inr (hclosed.propagate entry)
  have hreach : ∀ o ∈ (propagate out cut entry best).2, cut ≤ o.2 ∧ GainReach out root o.1 o.2 := by
    intro o ho
    obtain ⟨hworth, c, hc, heq⟩ := hqueued o ho
    exact ⟨hworth, entry.1, entry.2, (o.1, c), hentry, hc, rfl, heq⟩
  refine ⟨hpopped root 1 h.start, ?_, ?_, ?_⟩
  · intro v w hget
    rcases hstored v w hget with hold | hnew
    · exact hpopped v w (h.done v w hold)
    · exact Or.inl (List.mem_append_right _ hnew)
  · intro o ho
    rcases List.mem_append.mp ho with ho | ho
    · exact h.queued o (List.mem_cons_of_mem entry ho)
    · exact (hreach o ho).2.walk
  · intro v w hget
    rcases hstored v w hget with hold | hnew
    · exact h.stored v w hold
    · exact hreach (v, w) hnew

/-- What is stored is worth a walk that stays above the threshold. -/
theorem Swept.sound (h : Swept out cut root [] best) (hget : best.get? v = some w) : cut ≤ w ∧
    GainReach out root v w :=
  h.stored v w hget

/-- **The sweep misses no walk** once its queue has run dry. -/
theorem Swept.le_best [IsStrictOrderedRing K] (hout : ∀ n, ∀ o ∈ out n, 0 ≤ o.2 ∧ o.2 ≤ 1)
    (h : Swept out cut root [] best)
    (hreach : GainReach out root v w) (hw : cut ≤ w) : ∃ y, best.get? v = some y ∧ w ≤ y := by
  -- along a walk above the threshold every node but the root stores at least the worth so far
  have hwalk : ∀ {u x}, GainWalk out root u x → cut ≤ x → ∃ y, x ≤ y ∧ Closed out cut best u y := by
    intro u x hwalk
    induction hwalk with
    | start => exact fun _ => ⟨1, le_rfl, h.start.resolve_left List.not_mem_nil⟩
    | @step u x o hwalk ho ih =>
        intro hworth
        have hx : 0 ≤ x := hwalk.nonneg fun n o ho => (hout n o ho).1
        obtain ⟨y, hxy, hclosed⟩ := ih (hworth.trans (mul_le_of_le_one_right hx (hout u o ho).2))
        have hle : x * o.2 ≤ y * o.2 := mul_le_mul_of_nonneg_right hxy (hout u o ho).1
        obtain ⟨z, hz, hyz⟩ := hclosed o ho (hworth.trans hle)
        exact ⟨z, hle.trans hyz, (h.done o.1 z hz).resolve_left List.not_mem_nil⟩
  obtain ⟨u, x, o, hu, ho, rfl, rfl⟩ := hreach
  have hx : 0 ≤ x := hu.nonneg fun n o ho => (hout n o ho).1
  obtain ⟨y, hxy, hclosed⟩ := hwalk hu (hw.trans (mul_le_of_le_one_right hx (hout u o ho).2))
  have hle : x * o.2 ≤ y * o.2 := mul_le_mul_of_nonneg_right hxy (hout u o ho).1
  obtain ⟨z, hz, hyz⟩ := hclosed o ho (hw.trans hle)
  exact ⟨z, hz, hle.trans hyz⟩

end Sweep

end Lib
