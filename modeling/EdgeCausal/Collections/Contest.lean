import Mathlib.Data.List.Induction
import Mathlib.Order.Lattice
import Mathlib.Order.Monotone.Basic
import Mathlib.Tactic.Common

/-!
# `Collections.Contest` — who is in the lead at the end of a list

A loop with a bar: an item that reaches the bar takes the lead and sets the bar to its *graded* level
(its level rounded onto a grid, say). Grading makes the loop differ from a running maximum: an item below
the leader's own level may still reach the bar. `LastLeader` names the item in the lead at the end without
running the loop, and `foldl_contest` is the agreement of the two.
-/

namespace Lib

universe u v

variable {α : Type u} {β : Type v} [LinearOrder β]

/-- One item against the bar. -/
def contest (grade : β → β) (level : α → β) (cur : β × Option α) (x : α) : β × Option α :=
  if cur.1 ≤ level x then (grade (level x), some x) else cur

/-- `x` reaches the starting bar and every bar set before it, and nothing after it reaches the bar it sets. -/
def LastLeader (grade : β → β) (level : α → β) (bar : β) (l : List α) (x : α) : Prop :=
  ∃ before after, l = before ++ x :: after ∧ bar ≤ level x ∧ (∀ y ∈ before, grade (level y) ≤ level x) ∧
    ∀ y ∈ after, level y < grade (level x)

variable {grade : β → β} {level : α → β} {bar : β} {l : List α} {x : α}

theorem LastLeader.mem (h : LastLeader grade level bar l x) : x ∈ l := by
  obtain ⟨before, after, rfl, -⟩ := h
  exact List.mem_append_right before List.mem_cons_self

/-- The bar stays at or below what the start and the graded levels stay at or below. -/
theorem bar_le {c : β} (l : List α) (hl : ∀ y ∈ l, grade (level y) ≤ c) {cur : β × Option α}
    (hcur : cur.1 ≤ c) :
    (l.foldl (contest grade level) cur).1 ≤ c := by
  induction l generalizing cur with
  | nil => exact hcur
  | cons y l ih =>
      rw [List.foldl_cons]
      apply ih (fun z hz => hl z (List.mem_cons_of_mem y hz))
      unfold contest
      split
      · exact hl y List.mem_cons_self
      · exact hcur

/-- Items below the bar leave the loop where it is. -/
theorem foldl_contest_of_lt (l : List α) {cur : β × Option α} (hl : ∀ y ∈ l, level y < cur.1) :
    l.foldl (contest grade level) cur = cur := by
  induction l with
  | nil => rfl
  | cons y l ih =>
      have hy : contest grade level cur y = cur := if_neg (not_le.mpr (hl y List.mem_cons_self))
      rw [List.foldl_cons, hy]
      exact ih fun z hz => hl z (List.mem_cons_of_mem y hz)

/-- **The loop ends with the last leader.** -/
theorem foldl_contest (h : LastLeader grade level bar l x) (start : Option α) :
    l.foldl (contest grade level) (bar, start) = (grade (level x), some x) := by
  obtain ⟨before, after, rfl, hbar, hbefore, hafter⟩ := h
  have hlead : (before.foldl (contest grade level) (bar, start)).1 ≤ level x := bar_le before hbefore hbar
  rw [List.foldl_append, List.foldl_cons, contest, if_pos hlead]
  exact foldl_contest_of_lt after hafter

/-- **Somebody leads, unless everybody is below the start.** Grading has to be monotone, with the start and
    graded levels on the grid. -/
theorem exists_lastLeader (hmono : Monotone grade) (hgrid : ∀ b, grade (grade b) = grade b)
    (hbar : grade bar = bar) (l : List α) :
    (∃ x, LastLeader grade level bar l x) ∨ ∀ y ∈ l, level y < bar := by
  induction l using List.reverseRecOn with
  | nil => exact Or.inr fun y hy => absurd hy List.not_mem_nil
  | append_singleton l y ih =>
      by_cases hy : bar ≤ level y ∧ ∀ z ∈ l, grade (level z) ≤ level y
      · -- the new item takes the lead
        exact Or.inl ⟨y, l, [], rfl, hy.1, hy.2, fun z hz => absurd hz List.not_mem_nil⟩
      rcases ih with ⟨x, before, after, rfl, hx, hbefore, hafter⟩ | hlow
      · -- the leader so far keeps it: its bar is the highest so far
        have htop : ∀ z ∈ before ++ x :: after, grade (level z) ≤ grade (level x) := by
          intro z hz
          rcases List.mem_append.mp hz with hz | hz
          · have := hmono (hbefore z hz)
            rwa [hgrid] at this
          · rcases List.mem_cons.mp hz with rfl | hz
            · exact le_rfl
            · have := hmono (hafter z hz).le
              rwa [hgrid] at this
        have hlt : level y < grade (level x) := by
          by_contra hn
          have hstart : bar ≤ grade (level x) := by
            have := hmono hx
            rwa [hbar] at this
          exact hy ⟨hstart.trans (not_lt.mp hn), fun z hz => (htop z hz).trans (not_lt.mp hn)⟩
        refine Or.inl ⟨x, before, after ++ [y], by simp, hx, hbefore, ?_⟩
        intro z hz
        rcases List.mem_append.mp hz with hz | hz
        · exact hafter z hz
        · obtain rfl := List.mem_singleton.mp hz
          exact hlt
      · refine Or.inr ?_
        intro z hz
        rcases List.mem_append.mp hz with hz | hz
        · exact hlow z hz
        · obtain rfl := List.mem_singleton.mp hz
          by_contra hn
          -- whoever is below the start has a graded level at most the start
          have hall : ∀ w ∈ l, grade (level w) ≤ level z := by
            intro w hw
            have := hmono (hlow w hw).le
            rw [hbar] at this
            exact this.trans (not_lt.mp hn)
          exact hy ⟨not_lt.mp hn, hall⟩

end Lib
