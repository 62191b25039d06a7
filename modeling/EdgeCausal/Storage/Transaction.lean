import Mathlib.Data.List.Basic
import Mathlib.Tactic.Common

/-!
# `Storage.Transaction` — one connection and its implicit transaction

A connection sees its own writes; what is durable changes only when it commits. The first write opens a
transaction, which stays open until the connection commits or rolls back: a procedure that gives up halfway
without rolling back leaves its writes to the next commit, whoever makes it.
-/

namespace Lib

universe u v

/-- A database of state `σ` behind one connection. -/
@[ext] structure Conn (σ : Type u) where
  durable : σ
  view : σ

namespace Conn
variable {σ : Type u} {τ : Type v} {c d : Conn σ} {s : σ}

/-- A connection with no open transaction. -/
def clean (s : σ) : Conn σ := ⟨s, s⟩

/-- One statement. -/
def exec (c : Conn σ) (stmt : σ → σ) : Conn σ := { c with view := stmt c.view }

def commit (c : Conn σ) : Conn σ := ⟨c.view, c.view⟩

/-- Statements in order. -/
def execAll (c : Conn σ) (stmts : List (σ → σ)) : Conn σ := stmts.foldl exec c

@[simp] theorem clean_view : (clean s).view = s := rfl
@[simp] theorem clean_durable : (clean s).durable = s := rfl
@[simp] theorem commit_view : c.commit.view = c.view := rfl
@[simp] theorem commit_durable : c.commit.durable = c.view := rfl
@[simp] theorem exec_view {stmt : σ → σ} : (c.exec stmt).view = stmt c.view := rfl
@[simp] theorem exec_durable {stmt : σ → σ} : (c.exec stmt).durable = c.durable := rfl

/-- Statements run against the connection's own view. -/
@[simp] theorem execAll_view (stmts : List (σ → σ)) :
    (c.execAll stmts).view = stmts.foldl (fun s stmt => stmt s) c.view := by
  induction stmts generalizing c with
  | nil => rfl
  | cons stmt stmts ih => exact ih

/-- Until the commit nothing is durable. -/
@[simp] theorem execAll_durable (stmts : List (σ → σ)) : (c.execAll stmts).durable = c.durable := by
  induction stmts generalizing c with
  | nil => rfl
  | cons stmt stmts ih => exact ih

theorem commit_eq_clean : c.commit = clean c.view := rfl

/-- Two connections look the same through `π`. -/
structure Alike (π : σ → τ) (c d : Conn σ) : Prop where
  durable : π c.durable = π d.durable
  view : π c.view = π d.view

/-- **Simulation.** A procedure whose committed state depends on the view through `π` only keeps two
    connections alike, over any number of calls. -/
theorem Alike.foldl {α : Type*} {π : σ → τ} {call : Conn σ → α → Conn σ}
    (hcall : ∀ c d a, Alike π c d → Alike π (call c a) (call d a)) (as : List α) (h : Alike π c d) :
    Alike π (as.foldl call c) (as.foldl call d) := by
  induction as generalizing c d with
  | nil => exact h
  | cons a as ih => exact ih (hcall c d a h)

/-! ## Connections under a map -/

/-- The connection with both states mapped. -/
def map (f : σ → τ) (c : Conn σ) : Conn τ := ⟨f c.durable, f c.view⟩

end Conn

end Lib
