import EdgeCausal.Storage.Transaction
import EdgeCausal.Temporal.History

/-!
# `Storage.Recovery` — what a connection guarantees across kills

A process may be killed at any moment; the one that opens the database next sees what was committed. When every
statement keeps an invariant and lets the state grow only, both hold of what is durable at every moment of every
run, whichever procedures gave up halfway and however often the process died.
-/

namespace Lib

universe u v

namespace Conn
variable {σ : Type u} {α : Type v} {c : Conn σ} {s : σ}

/-- The process is killed and another opens the database: what was not committed is gone. -/
def kill (c : Conn σ) : Conn σ := clean c.durable

@[simp] theorem kill_durable : c.kill.durable = c.durable := rfl
@[simp] theorem kill_view : c.kill.view = c.durable := rfl

/-- Both states satisfy the invariant, and the view has grown out of what is durable. -/
structure Safe (I : σ → Prop) (R : σ → σ → Prop) (c : Conn σ) : Prop where
  durable : I c.durable
  view : I c.view
  grown : R c.durable c.view

variable {I : σ → Prop} {R : σ → σ → Prop}

theorem Safe.clean (hrefl : ∀ s, R s s) (h : I s) : Safe I R (clean s) := ⟨h, h, hrefl s⟩

theorem Safe.commit (hrefl : ∀ s, R s s) (h : Safe I R c) : Safe I R c.commit := .clean hrefl h.view

theorem Safe.kill (hrefl : ∀ s, R s s) (h : Safe I R c) : Safe I R c.kill := .clean hrefl h.durable

/-- Statements that take the view to a grown state that satisfies the invariant. -/
theorem Safe.execAll (htrans : ∀ {s t u}, R s t → R t u → R s u) (h : Safe I R c) {stmts : List (σ → σ)}
    (hI : I (stmts.foldl (fun s stmt => stmt s) c.view))
    (hR : R c.view (stmts.foldl (fun s stmt => stmt s) c.view)) : Safe I R (c.execAll stmts) := by
  refine ⟨?_, ?_, ?_⟩
  · rw [execAll_durable]
    exact h.durable
  · rw [execAll_view]
    exact hI
  · rw [execAll_durable, execAll_view]
    exact htrans h.grown hR

/-- **Recovery rule.** When every operation keeps a connection safe and lets what is durable grow, so does every
    run: at any two moments the durable state satisfies the invariant, and the later has grown out of the earlier. -/
theorem Safe.history {step : Conn σ → α → Conn σ} (hrefl : ∀ s, R s s)
    (htrans : ∀ {s t u}, R s t → R t u → R s u) (ops : List α)
    (hstep : ∀ c, ∀ a ∈ ops, Safe I R c → Safe I R (step c a) ∧ R c.durable (step c a).durable) (h : Safe I R c)
    {i j : ℕ} (hij : i ≤ j) :
    Safe I R (stateAt step c ops j) ∧ R (stateAt step c ops i).durable (stateAt step c ops j).durable := by
  have hsafe : ∀ k, Safe I R (stateAt step c ops k) :=
    stateAt_inv h fun c a ha hc => (hstep c a ha hc).1
  refine ⟨hsafe j, ?_⟩
  obtain ⟨k, rfl⟩ := Nat.exists_eq_add_of_le hij
  induction k with
  | zero => exact hrefl _
  | succ k ih =>
      have hgrown := ih (Nat.le_add_right i k)
      show R _ (stateAt step c ops (i + k + 1)).durable
      cases hop : ops[i + k]? with
      | none =>
          rw [stateAt_succ_of_none hop]
          exact hgrown
      | some a =>
          rw [stateAt_succ hop]
          exact htrans hgrown (hstep _ a (List.mem_of_getElem? hop) (hsafe (i + k))).2

end Conn

end Lib
