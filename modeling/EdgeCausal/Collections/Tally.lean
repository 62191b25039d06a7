import Mathlib.Algebra.BigOperators.Group.List.Basic
import Mathlib.Algebra.Order.Field.Rat
import Mathlib.Data.List.Nodup
import Mathlib.Tactic.Common

/-!
# `Collections.Tally` — a log kept as one running summary per key

Every item of a log has a key. The items under a key are a part of the log (`under`), the parts add up to
the whole, and the mean of a part can be kept up one item at a time.
-/

namespace Lib

universe u v

section Under
variable {β : Type u} {κ : Type v} [DecidableEq κ] {key : β → κ} {log : List β} {k : κ} {b : β}

/-- The items of a log with key `k`, in order. -/
def under (key : β → κ) (log : List β) (k : κ) : List β := log.filter (key · = k)

theorem under_concat_self (h : key b = k) : under key (log ++ [b]) k = under key log k ++ [b] := by
  unfold under
  rw [List.filter_append]
  simp [h]

theorem under_concat_of_ne (h : key b ≠ k) : under key (log ++ [b]) k = under key log k := by
  unfold under
  rw [List.filter_append]
  simp [h]

theorem under_eq_nil (h : ∀ b ∈ log, key b ≠ k) : under key log k = [] := by
  unfold under
  rw [List.filter_eq_nil_iff]
  intro b hb
  simpa using h b hb

/-- An item with a key of its own is alone under it. -/
theorem under_eq_singleton (h : log.Pairwise fun b c => key b ≠ key c) (hb : b ∈ log) :
    under key log (key b) = [b] := by
  obtain ⟨before, after, rfl⟩ := List.append_of_mem hb
  obtain ⟨-, hafter, hbefore⟩ := List.pairwise_append.mp h
  have hnil : under key before (key b) = [] := under_eq_nil fun c hc => hbefore c hc b List.mem_cons_self
  have hnil' : under key after (key b) = [] := under_eq_nil fun c hc =>
    ((List.pairwise_cons.mp hafter).1 c hc).symm
  unfold under at hnil hnil' ⊢
  rw [List.filter_append, List.filter_cons_of_pos (by simp), hnil, hnil', List.nil_append]

theorem sum_indicator {keys : List κ} (hnd : keys.Nodup) (hk : k ∈ keys) :
    (keys.map fun k' => if k = k' then 1 else 0).sum = 1 := by
  induction keys with
  | nil => exact absurd hk List.not_mem_nil
  | cons k' keys ih =>
      rw [List.nodup_cons] at hnd
      rw [List.map_cons, List.sum_cons]
      by_cases h : k = k'
      · subst h
        have hzero : (keys.map fun k' => if k = k' then 1 else 0).sum = 0 := by
          refine List.sum_eq_zero ?_
          intro n hn
          obtain ⟨k', hk', rfl⟩ := List.mem_map.mp hn
          have hne : k ≠ k' := fun heq => hnd.1 (heq ▸ hk')
          exact if_neg hne
        rw [if_pos rfl, hzero]
      · rw [if_neg h, ih hnd.2 ((List.mem_cons.mp hk).resolve_left h)]

/-- **Nothing lost, nothing counted twice**: over keys that cover the log, the parts add up to the log. -/
theorem sum_length_under {keys : List κ} (hnd : keys.Nodup) (hcover : ∀ b ∈ log, key b ∈ keys) :
    (keys.map fun k => (under key log k).length).sum = log.length := by
  induction log with
  | nil => simp [under]
  | cons b log ih =>
      have hhead : ∀ k, (under key (b :: log) k).length
          = (if key b = k then 1 else 0) + (under key log k).length := by
        intro k
        unfold under
        by_cases h : key b = k
        · simp [h, Nat.add_comm]
        · simp [h]
      simp only [hhead]
      rw [List.sum_map_add, sum_indicator hnd (hcover b List.mem_cons_self),
        ih fun b' hb' => hcover b' (List.mem_cons_of_mem b hb'), List.length_cons, Nat.add_comm]

end Under

/-! ## Running means -/

/-- Arithmetic mean (0 for no items). -/
def average (l : List ℚ) : ℚ := l.sum / l.length

@[simp] theorem average_singleton (x : ℚ) : average [x] = x := by simp [average]

/-- The mean after one more item, from the mean and the number before. -/
theorem average_concat {l : List ℚ} (hl : l ≠ []) (x : ℚ) :
    average (l ++ [x]) = (average l * l.length + x) / (l.length + 1 : ℕ) := by
  have hlen : (l.length : ℚ) ≠ 0 := by
    rw [Nat.cast_ne_zero, ne_eq, List.length_eq_zero_iff]
    exact hl
  unfold average
  rw [List.sum_append, List.length_append, List.sum_singleton, List.length_singleton,
    div_mul_cancel₀ _ hlen]

end Lib
