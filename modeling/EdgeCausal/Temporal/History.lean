import Mathlib.Data.List.Induction
import Mathlib.Order.Bounds.Basic
import Mathlib.Order.Lattice
import Mathlib.Tactic.Common

/-!
# `Temporal.History` — what a state remembers of its past

A deterministic machine run on a list of inputs (`stateAt`), and the two ways in which one bit or one
number of its state can stand for the whole past:

* `IsPeak` — the greatest value a partially defined quantity has taken so far;
* `latch_iff` — a bit that is set by an event and cleared as soon as a condition fails is on exactly when
  some earlier event set it and the condition has held ever since.

`between` cuts out the inputs of a stretch of the run, for what is counted along it, and `logged` runs a machine
whose inputs show effects.
-/

namespace Lib

universe u v w

/-! ## Runs -/

section Run
variable {σ : Type u} {α : Type v} {step : σ → α → σ} {s : σ} {l : List α}

/-- The state after the first `i` inputs. -/
def stateAt (step : σ → α → σ) (s : σ) (l : List α) (i : ℕ) : σ := (l.take i).foldl step s

@[simp] theorem stateAt_zero : stateAt step s l 0 = s := rfl

theorem stateAt_succ {i : ℕ} {a : α} (h : l[i]? = some a) :
    stateAt step s l (i + 1) = step (stateAt step s l i) a := by
  unfold stateAt
  rw [List.take_add_one, h, List.foldl_append]
  rfl

/-- Past the end of the inputs nothing happens. -/
theorem stateAt_succ_of_none {i : ℕ} (h : l[i]? = none) :
    stateAt step s l (i + 1) = stateAt step s l i := by
  unfold stateAt
  rw [List.take_add_one, h]
  simp

/-- **Invariant rule.** What the start satisfies and every input of the run preserves holds throughout. -/
theorem stateAt_inv {I : σ → Prop} (h0 : I s) (hstep : ∀ t, ∀ a ∈ l, I t → I (step t a)) :
    ∀ i, I (stateAt step s l i) := by
  intro i
  refine List.foldlRecOn (motive := I) (l.take i) step h0 ?_
  intro t ht a ha
  exact hstep t a (List.mem_of_mem_take ha) ht

end Run

/-! ## Logged runs -/

section Log
variable {σ : Type u} {α : Type v} {ε : Type w} {step : σ → α → σ × List ε} {s : σ}

/-- A run of a machine whose inputs show effects: the last state, and all effects in order. -/
def logged (step : σ → α → σ × List ε) (s : σ) (l : List α) : σ × List ε :=
  l.foldl (fun cur a => ((step cur.1 a).1, cur.2 ++ (step cur.1 a).2)) (s, [])

/-- **Invariant rule.** What the start satisfies with an empty log, and every input preserves as it extends the
    log, holds after every run. -/
theorem logged_inv {I : σ → List ε → Prop} (h0 : I s [])
    (hstep : ∀ t log a, I t log → I (step t a).1 (log ++ (step t a).2)) (l : List α) :
    I (logged step s l).1 (logged step s l).2 := by
  refine List.foldlRecOn (motive := fun cur : σ × List ε => I cur.1 cur.2) l _ h0 ?_
  rintro ⟨t, log⟩ ht a -
  exact hstep t log a ht

/-- The log of a longer run extends that of a shorter one. -/
theorem logged_append (l l' : List α) :
    logged step s (l ++ l') = ((logged step (logged step s l).1 l').1,
      (logged step s l).2 ++ (logged step (logged step s l).1 l').2) := by
  induction l' using List.reverseRecOn with
  | nil => simp [logged]
  | append_singleton l' a ih =>
      have hlast : ∀ (t : σ) (l : List α), logged step t (l ++ [a])
          = ((step (logged step t l).1 a).1, (logged step t l).2 ++ (step (logged step t l).1 a).2) := by
        intro t l
        unfold logged
        rw [List.foldl_append]
        rfl
      rw [← List.append_assoc, hlast, ih, hlast, List.append_assoc]

theorem logged_cons (a : α) (l : List α) :
    logged step s (a :: l) = ((logged step (step s a).1 l).1, (step s a).2 ++ (logged step (step s a).1 l).2) := by
  have h : logged step s ([a] ++ l) = _ := logged_append [a] l
  simpa [logged] using h

end Log

/-! ## Peaks -/

section Peak
variable {α : Type u} [LinearOrder α] {x : ℕ → Option α} {n : ℕ} {p c : α}

/-- `p` is the greatest value `x` has had up to time `n`. -/
def IsPeak (x : ℕ → Option α) (n : ℕ) (p : α) : Prop := IsGreatest {c | ∃ i ≤ n, x i = some c} p

/-- The first value is the peak. -/
theorem IsPeak.first (hnone : ∀ i ≤ n, x i = none) (hx : x (n + 1) = some c) : IsPeak x (n + 1) c := by
  refine ⟨⟨n + 1, le_rfl, hx⟩, ?_⟩
  rintro c' ⟨i, hi, hc'⟩
  rcases Nat.le_succ_iff.mp hi with hi | rfl
  · rw [hnone i hi] at hc'
    exact absurd hc' (by simp)
  · rw [hx] at hc'
    exact (Option.some.inj hc').ge

/-- The peak after one more value. -/
theorem IsPeak.succ (h : IsPeak x n p) (hx : x (n + 1) = some c) : IsPeak x (n + 1) (max p c) := by
  constructor
  · obtain ⟨i, hi, hp⟩ := h.1
    rcases le_total p c with hle | hle
    · rw [max_eq_right hle]
      exact ⟨n + 1, le_rfl, hx⟩
    · rw [max_eq_left hle]
      exact ⟨i, hi.trans n.le_succ, hp⟩
  · rintro c' ⟨i, hi, hc'⟩
    rcases Nat.le_succ_iff.mp hi with hi | rfl
    · exact (h.2 ⟨i, hi, hc'⟩).trans (le_max_left p c)
    · rw [hx] at hc'
      exact (Option.some.inj hc').ge.trans (le_max_right p c)

end Peak

/-! ## Latches -/

section Latch
variable {on set keep : ℕ → Prop} {N : ℕ}

/-- **A latch is its history.** A bit that starts off, is switched on by `set` and survives a step only
    while `keep` holds at its end, is on after `n` steps exactly when some earlier step switched it on and
    `keep` has held at the end of every step since, that one included. -/
theorem latch_iff (h0 : ¬ on 0)
    (hstep : ∀ i < N, (on (i + 1) ↔ (on i ∨ set i) ∧ keep (i + 1))) :
    ∀ n ≤ N, (on n ↔ ∃ i < n, set i ∧ ∀ j, i < j → j ≤ n → keep j) := by
  intro n
  induction n with
  | zero =>
      intro _
      exact ⟨fun h => absurd h h0, fun ⟨i, hi, _⟩ => absurd hi (Nat.not_lt_zero i)⟩
  | succ n ih =>
      intro hn
      rw [hstep n hn, ih (Nat.le_of_succ_le hn)]
      constructor
      · rintro ⟨⟨i, hi, hset, hkeep⟩ | hset, hlast⟩
        · refine ⟨i, Nat.lt_succ_of_lt hi, hset, ?_⟩
          intro j hij hj
          rcases Nat.le_succ_iff.mp hj with hj | rfl
          · exact hkeep j hij hj
          · exact hlast
        · refine ⟨n, n.lt_succ_self, hset, ?_⟩
          intro j hnj hj
          obtain rfl : j = n + 1 := Nat.le_antisymm hj hnj
          exact hlast
      · rintro ⟨i, hi, hset, hkeep⟩
        refine ⟨?_, hkeep (n + 1) hi le_rfl⟩
        -- set before the last step, or by it
        rcases Nat.lt_succ_iff_lt_or_eq.mp hi with hi | rfl
        · exact Or.inl ⟨i, hi, hset, fun j hij hj => hkeep j hij (hj.trans n.le_succ)⟩
        · exact Or.inr hset

end Latch

/-! ## Stretches -/

section Stretch
variable {α : Type u} {l : List α} {i j : ℕ} {a : α}

/-- The inputs from the `i`-th on and before the `j`-th. -/
def between (l : List α) (i j : ℕ) : List α := (l.take j).drop i

theorem between_self : between l i i = [] := by
  unfold between
  exact List.drop_eq_nil_of_le (List.length_take_le i l)

/-- One more input. -/
theorem between_succ (hij : i ≤ j) (h : l[j]? = some a) : between l i (j + 1) = between l i j ++ [a] := by
  have hj : j < l.length := (List.getElem?_eq_some_iff.mp h).1
  unfold between
  rw [List.take_add_one, h, List.drop_append_of_le_length]
  · rfl
  · rw [List.length_take]
    omega

end Stretch

end Lib
