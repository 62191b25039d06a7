import Mathlib.Order.Lattice
import Mathlib.Data.List.Pairwise
import Mathlib.Tactic.Common

/-!
# `Temporal.SampleHold` — sample and hold onto a grid

A series is read onto a grid of instants with one pointer that only moves forward: at each instant it goes on to
the last sample up to a bound that belongs to the instant, and stays there. On a grid whose bounds ascend nothing
is lost by never going back (`sampleAndHold_eq`): every instant gets the sample it would get on its own, which is
the last one up to its bound, or the first of all where none is that early (`advance_isHeld`).
-/

namespace Lib

universe u v w

variable {α : Type u} {τ : Type v} {γ : Type w} [LinearOrder τ]

section Pointer
variable (time : α → τ)

/-- Move the pointer from `cur` over the samples after it, as long as the next one is not after `bound`: the sample
    it stops at and those that remain. -/
def advance (bound : τ) : α → List α → α × List α
  | cur, [] => (cur, [])
  | cur, next :: later => if time next ≤ bound then advance bound next later else (cur, next :: later)

/-- Each instant of a grid with the sample the pointer stops at. -/
def sampleAndHold (bound : γ → τ) : List γ → α → List α → List (γ × α)
  | [], _, _ => []
  | g :: grid, cur, later =>
      let moved := advance time (bound g) cur later
      (g, moved.1) :: sampleAndHold bound grid moved.1 moved.2

end Pointer

section Run
variable {time : α → τ} {bound : γ → τ} {b b' : τ} {cur : α} {later : List α} {grid : List γ}

theorem length_sampleAndHold (time : α → τ) (bound : γ → τ) (grid : List γ) (cur : α) (later : List α) :
    (sampleAndHold time bound grid cur later).length = grid.length := by
  induction grid generalizing cur later with
  | nil => rfl
  | cons g grid ih => rw [sampleAndHold, List.length_cons, ih, List.length_cons]

/-- Stopping on the way to a later bound makes no difference. -/
theorem advance_advance (h : b ≤ b') :
    advance time b' (advance time b cur later).1 (advance time b cur later).2 = advance time b' cur later := by
  induction later generalizing cur with
  | nil => rfl
  | cons next later ih =>
      by_cases hnext : time next ≤ b
      · rw [advance, if_pos hnext, ih, advance, if_pos (hnext.trans h)]
      · rw [advance, if_neg hnext]

/-- **One pointer serves a whole ascending grid.** -/
theorem sampleAndHold_eq (h : grid.Pairwise fun g g' => bound g ≤ bound g') :
    sampleAndHold time bound grid cur later = grid.map fun g => (g, (advance time (bound g) cur later).1) := by
  induction grid generalizing cur later with
  | nil => rfl
  | cons g grid ih =>
      obtain ⟨hfirst, hrest⟩ := List.pairwise_cons.mp h
      rw [sampleAndHold, ih hrest, List.map_cons]
      refine congrArg _ (List.map_congr_left fun g' hg' => ?_)
      rw [advance_advance (hfirst g' hg')]

end Run

/-! ## Another clock -/

section Clock
variable {α' γ' : Type*} {time : α → τ} {bound : γ → τ} {time' : α' → τ} {bound' : γ' → τ}

end Clock

/-! ## The sample held -/

section Held
variable {β : Type w} [LinearOrder β] {key : α → β} {time : α → τ} {samples : List α} {bound : τ} {s s' : α}

/-- Of the samples, in the order of their keys, `s` is the last one up to `bound`, or the first of all where none is
    that early. -/
structure IsHeld (key : α → β) (time : α → τ) (samples : List α) (bound : τ) (s : α) : Prop where
  mem : s ∈ samples
  last : ∀ x ∈ samples, time x ≤ bound → time s ≤ bound ∧ key x ≤ key s
  first : (∀ x ∈ samples, bound < time x) → ∀ x ∈ samples, key s ≤ key x

/-- The order samples are listed in does not matter. -/
theorem IsHeld.congr {samples' : List α} (h : ∀ x, x ∈ samples ↔ x ∈ samples') :
    IsHeld key time samples bound s ↔ IsHeld key time samples' bound s := by
  constructor
  · rintro ⟨hmem, hlast, hfirst⟩
    exact ⟨(h s).mp hmem, fun x hx => hlast x ((h x).mpr hx),
      fun hall x hx => hfirst (fun y hy => hall y ((h y).mp hy)) x ((h x).mpr hx)⟩
  · rintro ⟨hmem, hlast, hfirst⟩
    exact ⟨(h s).mpr hmem, fun x hx => hlast x ((h x).mp hx),
      fun hall x hx => hfirst (fun y hy => hall y ((h y).mpr hy)) x ((h x).mp hx)⟩

/-- The sample held is one. -/
theorem IsHeld.key_unique (h : IsHeld key time samples bound s) (h' : IsHeld key time samples bound s') :
    key s = key s' := by
  by_cases hearly : ∃ x ∈ samples, time x ≤ bound
  · obtain ⟨x, hx, hle⟩ := hearly
    exact le_antisymm (h'.last s h.mem (h.last x hx hle).1).2 (h.last s' h'.mem (h'.last x hx hle).1).2
  · push Not at hearly
    exact le_antisymm (h.first hearly s' h'.mem) (h'.first hearly s h.mem)

/-- **The pointer stops at the sample held**, in a series sorted by a key that sorts by time first. -/
theorem advance_isHeld (hkey : ∀ {x y}, key x ≤ key y → time x ≤ time y) {cur : α} {later : List α}
    (hsorted : (cur :: later).Pairwise fun x y => key x ≤ key y) :
    IsHeld key time (cur :: later) bound (advance time bound cur later).1 := by
  induction later generalizing cur with
  | nil =>
      show IsHeld key time [cur] bound cur
      refine ⟨List.mem_singleton_self cur, ?_, ?_⟩
      · rintro x hx hle
        obtain rfl := List.mem_singleton.mp hx
        exact ⟨hle, le_rfl⟩
      · rintro - x hx
        obtain rfl := List.mem_singleton.mp hx
        exact le_rfl
  | cons next later ih =>
      obtain ⟨hcur, hrest⟩ := List.pairwise_cons.mp hsorted
      by_cases hnext : time next ≤ bound
      · -- the pointer moves on, and `cur` is no later than where it stops
        obtain ⟨hmem, hlast, -⟩ := ih hrest
        rw [advance, if_pos hnext]
        refine ⟨List.mem_cons_of_mem cur hmem, ?_, ?_⟩
        · intro x hx hle
          rcases List.mem_cons.mp hx with rfl | hx
          · exact ⟨(hlast next List.mem_cons_self hnext).1, hcur _ hmem⟩
          · exact hlast x hx hle
        · intro hall
          have hlate := hall next (List.mem_cons_of_mem cur List.mem_cons_self)
          exact absurd hnext (not_le.mpr hlate)
      · -- everything after `cur` is too late
        rw [advance, if_neg hnext]
        refine ⟨List.mem_cons_self, ?_, ?_⟩
        · intro x hx hle
          rcases List.mem_cons.mp hx with rfl | hx
          · exact ⟨hle, le_rfl⟩
          · have hge : time next ≤ time x := by
              rcases List.mem_cons.mp hx with rfl | hx
              · exact le_rfl
              · exact hkey ((List.pairwise_cons.mp hrest).1 x hx)
            exact absurd (hge.trans hle) hnext
        · rintro - x hx
          rcases List.mem_cons.mp hx with rfl | hx
          · exact le_rfl
          · exact hcur x hx

end Held

end Lib
