import EdgeCausal.Temporal.History
import Mathlib

/-!
# `Concurrent.Threads` — threads over a shared state

Threads run at once over a shared state, each somewhere in its own code (`threadStep`). What one thread's step does is
said once, by `act`, and two rules carry it to every interleaving:

* `threads_rule` — an invariant of the shared state, with what each thread may assert where it stands, holds when
  every step keeps the invariant, what its own thread asserts next, and what the others assert;
* `weigh_set` — a weight of the places where threads stand, summed over them, changes by that of the thread that moves.

A thread that has all the turns runs `alone` (`threads_alone`). `Each` is how a log is spoken of: every entry is
accounted for by those before it.
-/

namespace Lib

universe u v w x

/-! ## Logs -/

section Each
variable {η : Type x} {P : List η → η → Prop} {log : List η} {x : η}

/-- Every entry satisfies `P` with those before it. -/
def Each (P : List η → η → Prop) (log : List η) : Prop := ∀ before x after, log = before ++ x :: after → P before x

theorem each_nil : Each P [] := by
  intro before x after h
  exact absurd h (by simp)

theorem Each.concat (h : Each P log) (hx : P log x) : Each P (log ++ [x]) := by
  intro before y after heq
  rcases List.eq_nil_or_concat after with rfl | ⟨init, last, rfl⟩
  · obtain ⟨rfl, hy⟩ := List.append_inj' heq rfl
    obtain rfl := (List.cons.inj hy).1
    exact hx
  · rw [List.concat_eq_append, ← List.cons_append, ← List.append_assoc] at heq
    exact h before y init (List.append_inj_left' heq rfl)

end Each

/-! ## Threads -/

/-- What happens: a thread starts, or one of those there are is given its turn. -/
inductive Turn (κ : Type v) (ε : Type w) where
  | spawn (k : κ)
  | act (i : ℕ) (e : ε)

/-- The shared state, and where each thread stands. -/
structure Threads (σ : Type u) (κ : Type v) where
  shared : σ
  places : List κ

section Step
variable {σ : Type u} {κ : Type v} {ε : Type w} {η : Type x}
  (act : σ → κ → ε → Option (σ × κ × List η))

/-- One turn; one that the thread has no step for does nothing. -/
def threadStep (s : Threads σ κ) : Turn κ ε → Threads σ κ × List (ℕ × η)
  | .spawn k => (⟨s.shared, s.places ++ [k]⟩, [])
  | .act i e =>
      match s.places[i]?.bind fun k => act s.shared k e with
      | none => (s, [])
      | some (shared, k, out) => (⟨shared, s.places.set i k⟩, out.map (Prod.mk i))

/-- The threads after some turns, and what they did. -/
def threads (s : Threads σ κ) (turns : List (Turn κ ε)) : Threads σ κ × List (ℕ × η) := logged (threadStep act) s turns

variable {act} {s : Threads σ κ} {i j : ℕ} {k : κ}

/-- What a turn does: a thread joins, one takes a step, or nothing happens. -/
theorem threadStep_cases (act : σ → κ → ε → Option (σ × κ × List η)) (s : Threads σ κ) (t : Turn κ ε) :
    (∃ k, t = .spawn k ∧ threadStep act s t = (⟨s.shared, s.places ++ [k]⟩, [])) ∨
    (∃ i k e shared k' out, s.places[i]? = some k ∧ act s.shared k e = some (shared, k', out) ∧
      threadStep act s t = (⟨shared, s.places.set i k'⟩, out.map (Prod.mk i))) ∨
    threadStep act s t = (s, []) := by
  cases t with
  | spawn k => exact Or.inl ⟨k, rfl, rfl⟩
  | act i e =>
      right
      unfold threadStep
      dsimp only
      cases hk : s.places[i]? with
      | none => exact Or.inr rfl
      | some k =>
          rw [Option.bind_some]
          cases hact : act s.shared k e with
          | none => exact Or.inr rfl
          | some out => exact Or.inl ⟨i, k, e, out.1, out.2.1, out.2.2, hk, hact, rfl⟩

theorem places_spawn {k' : κ} (h : (s.places ++ [k])[i]? = some k') :
    s.places[i]? = some k' ∨ (i = s.places.length ∧ k' = k) := by
  rw [List.getElem?_append] at h
  split at h
  · exact Or.inl h
  · obtain ⟨hi, rfl⟩ : i - s.places.length = 0 ∧ k = k' := by simpa [List.getElem?_singleton] using h
    exact Or.inr ⟨by omega, rfl⟩

theorem places_set {k' : κ} (h : (s.places.set i k)[j]? = some k') :
    (i = j ∧ k' = k) ∨ (i ≠ j ∧ s.places[j]? = some k') := by
  by_cases hij : i = j
  · subst hij
    rw [List.getElem?_set] at h
    obtain ⟨-, rfl⟩ : _ ∧ k = k' := by simpa using h
    exact Or.inl ⟨rfl, rfl⟩
  · rw [List.getElem?_set_ne hij] at h
    exact Or.inr ⟨hij, h⟩

/-- What each thread may assert where it stands, beside an invariant of the shared state; both may speak of what was
    done, and only the threads there are have done anything. -/
structure Asserted (I : σ → List (ℕ × η) → Prop) (J : ℕ → κ → σ → List (ℕ × η) → Prop) (s : Threads σ κ)
    (log : List (ℕ × η)) : Prop where
  known : ∀ x ∈ log, x.1 < s.places.length
  inv : I s.shared log
  places : ∀ i k, s.places[i]? = some k → J i k s.shared log

/-- **Rule of threads.** What holds at first and every thread starts with, what every step keeps for its own thread,
    and no step takes from another, holds in every interleaving. -/
theorem threads_rule {I : σ → List (ℕ × η) → Prop} {J : ℕ → κ → σ → List (ℕ × η) → Prop} {turns : List (Turn κ ε)}
    (hstart : Asserted I J s [])
    (hspawn : ∀ k, .spawn k ∈ turns → ∀ i shared log, (∀ x ∈ log, x.1 ≠ i) → I shared log → J i k shared log)
    (hown : ∀ i k e shared shared' k' out log, I shared log → J i k shared log →
      act shared k e = some (shared', k', out) →
      I shared' (log ++ out.map (Prod.mk i)) ∧ J i k' shared' (log ++ out.map (Prod.mk i)))
    (hothers : ∀ i k e shared shared' k' out log j l, I shared log → J i k shared log →
      act shared k e = some (shared', k', out) → i ≠ j → J j l shared log →
      J j l shared' (log ++ out.map (Prod.mk i))) :
    Asserted I J (threads act s turns).1 (threads act s turns).2 := by
  induction turns using List.reverseRecOn with
  | nil => exact hstart
  | append_singleton turns t ih =>
      have h := ih fun k hk => hspawn k (List.mem_append_left _ hk)
      have hlast : threads act s (turns ++ [t]) = ((threadStep act (threads act s turns).1 t).1,
          (threads act s turns).2 ++ (threadStep act (threads act s turns).1 t).2) := by
        unfold threads logged
        rw [List.foldl_append]
        rfl
      rw [hlast]
      rcases threadStep_cases act (threads act s turns).1 t with
        ⟨k, rfl, ht⟩ | ⟨i, k, e, shared, k', out, hi, hact, ht⟩ | ht
      · rw [ht, List.append_nil]
        refine ⟨?_, h.inv, ?_⟩
        · intro x hx
          rw [List.length_append]
          exact (h.known x hx).trans_le (Nat.le_add_right _ _)
        intro j l hj
        rcases places_spawn hj with hj | ⟨rfl, rfl⟩
        · exact h.places j l hj
        · exact hspawn l (by simp) _ _ _ (fun x hx => (h.known x hx).ne) h.inv
      · rw [ht]
        obtain ⟨hinv, hnext⟩ := hown i k e _ shared k' out _ h.inv (h.places i k hi) hact
        refine ⟨?_, hinv, ?_⟩
        · intro x hx
          rw [List.length_set]
          rcases List.mem_append.mp hx with hx | hx
          · exact h.known x hx
          · obtain ⟨y, -, rfl⟩ := List.mem_map.mp hx
            exact (List.getElem?_eq_some_iff.mp hi).1
        intro j l hj
        rcases places_set hj with ⟨rfl, rfl⟩ | ⟨hij, hj⟩
        · exact hnext
        · exact hothers i k e _ shared k' out _ j l h.inv (h.places i k hi) hact hij (h.places j l hj)
      · rw [ht, List.append_nil]
        exact h

/-! ## One thread alone -/

section Alone
variable (act)

/-- One turn of a thread that runs alone. -/
def aloneStep (cur : σ × κ) (e : ε) : (σ × κ) × List η :=
  match act cur.1 cur.2 e with
  | none => (cur, [])
  | some (shared, k, out) => ((shared, k), out)

/-- A thread that runs alone. -/
def alone (shared : σ) (k : κ) (es : List ε) : (σ × κ) × List η := logged (aloneStep act) (shared, k) es

/-- **A thread that has all the turns runs alone.** -/
theorem threads_alone (shared : σ) (places : List κ) (k : κ) (es : List ε) :
    threads act ⟨shared, places ++ [k]⟩ (es.map (Turn.act places.length))
      = (⟨(alone act shared k es).1.1, places ++ [(alone act shared k es).1.2]⟩,
        (alone act shared k es).2.map (Prod.mk places.length)) := by
  induction es generalizing shared k with
  | nil => rfl
  | cons e es ih =>
      have hget : (places ++ [k])[places.length]? = some k := by simp
      unfold threads alone at ih ⊢
      rw [List.map_cons, logged_cons, logged_cons]
      cases hact : act shared k e with
      | none =>
          have hstep : threadStep act ⟨shared, places ++ [k]⟩ (.act places.length e)
              = (⟨shared, places ++ [k]⟩, []) := by
            simp [threadStep, hact]
          have halone : aloneStep act (shared, k) e = ((shared, k), []) := by simp [aloneStep, hact]
          rw [hstep, halone, ih]
          rfl
      | some next =>
          obtain ⟨shared', k', out⟩ := next
          have hstep : threadStep act ⟨shared, places ++ [k]⟩ (.act places.length e)
              = (⟨shared', places ++ [k']⟩, out.map (Prod.mk places.length)) := by
            simp [threadStep, hact]
          have halone : aloneStep act (shared, k) e = ((shared', k'), out) := by simp [aloneStep, hact]
          rw [hstep, halone, ih, List.map_append]

end Alone

/-! ## Weights -/

section Weight
variable (weight : κ → ℕ)

/-- The weight of where the threads stand. -/
def weigh (places : List κ) : ℕ := (places.map weight).sum

theorem weigh_spawn (places : List κ) (k : κ) : weigh weight (places ++ [k]) = weigh weight places + weight k := by
  unfold weigh
  rw [List.map_append, List.sum_append]
  simp

/-- **A weight changes by that of the thread that moves.** -/
theorem weigh_set {places : List κ} (h : places[i]? = some k) (k' : κ) :
    weigh weight (places.set i k') + weight k = weigh weight places + weight k' := by
  induction places generalizing i with
  | nil => exact absurd h (by simp)
  | cons l places ih =>
      unfold weigh at ih ⊢
      cases i with
      | zero =>
          obtain rfl : l = k := by simpa using h
          simp only [List.set_cons_zero, List.map_cons, List.sum_cons]
          omega
      | succ i =>
          have hrest := ih (i := i) (by simpa using h)
          simp only [List.set_cons_succ, List.map_cons, List.sum_cons]
          omega

end Weight

end Step

end Lib
