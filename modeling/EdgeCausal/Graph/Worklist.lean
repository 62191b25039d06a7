import Mathlib

/-!
# `Graph.Worklist` — first-in first-out worklists

A loop that pops the front of a queue, visits it and queues what the visit found. The loop runs on a step
budget; when every visit is paid for by the potential of the item it pops (`Pays`), any budget of at least
the queue's potential gives the same result, so the budget is a bound and not a cut-off, and the loop without
one comes to an end (`drain_terminates`).
-/

namespace Lib

universe u v

variable {α : Type u} {σ : Type v}

/-- Pop the front item, visit it, queue what it found; stop when the queue is empty or the budget spent. -/
def drain (visit : α → σ → σ × List α) : ℕ → List α → σ → σ
  | 0, _, s => s
  | _ + 1, [], s => s
  | n + 1, a :: q, s => drain visit n (q ++ (visit a s).2) (visit a s).1

variable {visit : α → σ → σ × List α} {P : α → Prop} {pot : α → ℕ}

@[simp] theorem drain_nil (n : ℕ) (s : σ) : drain visit n [] s = s := by
  cases n <;> rfl

/-- A visit to an item satisfying `P` queues items satisfying `P`, of less potential in all than the item. -/
structure Pays (visit : α → σ → σ × List α) (P : α → Prop) (pot : α → ℕ) : Prop where
  keeps : ∀ a s, P a → ∀ b ∈ (visit a s).2, P b
  lt : ∀ a s, P a → ((visit a s).2.map pot).sum < pot a

/-- **Budget rule.** Two budgets that cover the potential of the queue give the same result. -/
theorem drain_budget (h : Pays visit P pot) {q : List α} (hq : ∀ a ∈ q, P a) {s : σ} {n n' : ℕ}
    (hn : (q.map pot).sum ≤ n) (hn' : (q.map pot).sum ≤ n') : drain visit n q s = drain visit n' q s := by
  induction n generalizing q s n' with
  | zero =>
      cases q with
      | nil => rw [drain_nil, drain_nil]
      | cons a q =>
          -- an item has positive potential, so no budget is left over for it
          have hpos := h.lt a s (hq a List.mem_cons_self)
          rw [List.map_cons, List.sum_cons] at hn
          omega
  | succ n ih =>
      cases q with
      | nil => rw [drain_nil, drain_nil]
      | cons a q =>
          have hok : P a := hq a List.mem_cons_self
          have hpos := h.lt a s hok
          rw [List.map_cons, List.sum_cons] at hn hn'
          cases n' with
          | zero => omega
          | succ n' =>
              show drain visit n (q ++ (visit a s).2) (visit a s).1
                = drain visit n' (q ++ (visit a s).2) (visit a s).1
              refine ih ?_ ?_ ?_
              · intro b hb
                rcases List.mem_append.mp hb with hb | hb
                · exact hq b (List.mem_cons_of_mem a hb)
                · exact h.keeps a s hok b hb
              · rw [List.map_append, List.sum_append]; omega
              · rw [List.map_append, List.sum_append]; omega

/-- **Invariant rule.** What a visit preserves, from any queue of items satisfying `P`, holds at the end. -/
theorem drain_inv {I : σ → Prop}
    (hvisit : ∀ a s, P a → I s → I (visit a s).1 ∧ ∀ b ∈ (visit a s).2, P b) {n : ℕ} {q : List α}
    {s : σ} (hq : ∀ a ∈ q, P a) (hs : I s) : I (drain visit n q s) := by
  induction n generalizing q s with
  | zero => exact hs
  | succ n ih =>
      cases q with
      | nil => exact hs
      | cons a q =>
          obtain ⟨hinv, hnew⟩ := hvisit a s (hq a List.mem_cons_self) hs
          refine ih ?_ hinv
          intro b hb
          rcases List.mem_append.mp hb with hb | hb
          · exact hq b (List.mem_cons_of_mem a hb)
          · exact hnew b hb

/-- **Exhaustion rule.** A budget that covers the potential of the queue lets it run dry: what visits preserve
    of queue and state together holds at the end with nothing queued. -/
theorem drain_exhausts (h : Pays visit P pot) {J : List α → σ → Prop}
    (hstep : ∀ a q s, P a → J (a :: q) s → J (q ++ (visit a s).2) (visit a s).1) {q : List α}
    (hq : ∀ a ∈ q, P a) {s : σ} {n : ℕ} (hn : (q.map pot).sum ≤ n) (hs : J q s) : J [] (drain visit n q s) := by
  induction n generalizing q s with
  | zero =>
      cases q with
      | nil => exact hs
      | cons a q =>
          have hpos := h.lt a s (hq a List.mem_cons_self)
          rw [List.map_cons, List.sum_cons] at hn
          omega
  | succ n ih =>
      cases q with
      | nil => exact hs
      | cons a q =>
          have hok : P a := hq a List.mem_cons_self
          have hpos := h.lt a s hok
          rw [List.map_cons, List.sum_cons] at hn
          apply ih
          · intro b hb
            rcases List.mem_append.mp hb with hb | hb
            · exact hq b (List.mem_cons_of_mem a hb)
            · exact h.keeps a s hok b hb
          · rw [List.map_append, List.sum_append]; omega
          · exact hstep a q s hok hs

/-- **Exhaustion rule, by room.** When a visit uses up at least as much room `R` as it queues items, a budget
    of the queue and the room lets the queue run dry. -/
theorem drain_runs_dry {J : List α → σ → Prop} {R : σ → ℕ}
    (hstep : ∀ a q s, J (a :: q) s → J (q ++ (visit a s).2) (visit a s).1 ∧
      R (visit a s).1 + (visit a s).2.length ≤ R s) {q : List α} {s : σ} {n : ℕ}
    (hn : q.length + R s ≤ n) (hs : J q s) : J [] (drain visit n q s) := by
  induction n generalizing q s with
  | zero =>
      obtain rfl : q = [] := List.length_eq_zero_iff.mp (by omega)
      exact hs
  | succ n ih =>
      cases q with
      | nil => exact hs
      | cons a q =>
          obtain ⟨hJ, hroom⟩ := hstep a q s hs
          apply ih _ hJ
          rw [List.length_append]
          rw [List.length_cons] at hn
          omega

/-- One turn of the loop; nothing happens once the queue is empty. -/
def drainStep (visit : α → σ → σ × List α) : List α × σ → List α × σ
  | ([], s) => ([], s)
  | (a :: q, s) => (q ++ (visit a s).2, (visit a s).1)

/-- **Termination rule.** Under the payment the loop without a budget runs dry, on the budgeted result. -/
theorem drain_terminates (h : Pays visit P pot) {q : List α} (hq : ∀ a ∈ q, P a) {s : σ} {n : ℕ}
    (hn : (q.map pot).sum ≤ n) : ∃ k, (drainStep visit)^[k] (q, s) = ([], drain visit n q s) := by
  -- the invariant: what is queued and the state are those of some turn
  apply drain_exhausts h (J := fun q' s' => ∃ k, (drainStep visit)^[k] (q, s) = (q', s')) _ hq hn ⟨0, rfl⟩
  rintro a q' s' - ⟨k, hk⟩
  refine ⟨k + 1, ?_⟩
  rw [Function.iterate_succ_apply', hk]
  rfl

/-- **Termination rule, by room.** -/
theorem drain_terminates_room {J : List α → σ → Prop} {R : σ → ℕ}
    (hstep : ∀ a q s, J (a :: q) s → J (q ++ (visit a s).2) (visit a s).1 ∧
      R (visit a s).1 + (visit a s).2.length ≤ R s) {q : List α} {s : σ} {n : ℕ}
    (hn : q.length + R s ≤ n) (hs : J q s) : ∃ k, (drainStep visit)^[k] (q, s) = ([], drain visit n q s) := by
  refine (drain_runs_dry (J := fun q' s' => J q' s' ∧ ∃ k, (drainStep visit)^[k] (q, s) = (q', s')) (R := R)
    ?_ hn ⟨hs, 0, rfl⟩).2
  rintro a q' s' ⟨hJ, k, hk⟩
  obtain ⟨hnext, hroom⟩ := hstep a q' s' hJ
  refine ⟨⟨hnext, k + 1, ?_⟩, hroom⟩
  rw [Function.iterate_succ_apply', hk]
  rfl

end Lib
