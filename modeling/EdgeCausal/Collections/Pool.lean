import EdgeCausal.Collections.Dict
import EdgeCausal.Collections.Tally
import Mathlib

/-!
# `Collections.Pool` — amounts added up by key

`pool` adds the amount of every item to the total of its key. The total of a key is the sum over its own items
(`get?_pool`), and totals can be pooled again by a coarser key without going back to the items (`pool_pool`).
-/

namespace Lib

universe u v w x

section Pool
variable {β : Type u} {κ : Type v} {κ' : Type w} {α : Type x} [DecidableEq κ] [DecidableEq κ'] [AddCommMonoid α]
variable {key : β → κ} {amount : β → α} {l : List β} {k : κ}

/-- The totals by key, keys in the order they are first seen. -/
def pool (key : β → κ) (amount : β → α) (l : List β) : Dict κ α :=
  l.foldl (fun d b => d.set (key b) ((d.get? (key b)).getD 0 + amount b)) ∅

theorem pool_concat (b : β) : pool key amount (l ++ [b])
    = (pool key amount l).set (key b) (((pool key amount l).get? (key b)).getD 0 + amount b) := by
  unfold pool
  rw [List.foldl_append]
  rfl

/-- **The total of a key** is the sum over its own items; a key without items has none. -/
theorem get?_pool (key : β → κ) (amount : β → α) (l : List β) (k : κ) :
    (pool key amount l).get? k = if under key l k = [] then none else some ((under key l k).map amount).sum := by
  induction l using List.reverseRecOn with
  | nil => rfl
  | append_singleton l b ih =>
      rw [pool_concat, Dict.get?_set]
      by_cases hk : key b = k
      · subst hk
        rw [if_pos rfl, under_concat_self rfl, if_neg (by simp), ih]
        by_cases hnil : under key l (key b) = []
        · simp [hnil]
        · simp [hnil]
      · rw [under_concat_of_ne hk, if_neg (Ne.symm hk), ih]

theorem mem_keys_pool : k ∈ (pool key amount l).keys ↔ ∃ b ∈ l, key b = k := by
  rw [Dict.mem_keys_iff_get?, get?_pool]
  unfold under
  by_cases hnil : l.filter (key · = k) = []
  · rw [if_pos hnil]
    refine iff_of_false (by simp) ?_
    rintro ⟨b, hb, hk⟩
    exact absurd (by simpa using hk) (List.filter_eq_nil_iff.mp hnil b hb)
  · rw [if_neg hnil]
    obtain ⟨b, hb⟩ := List.exists_mem_of_ne_nil _ hnil
    obtain ⟨hmem, hk⟩ := List.mem_filter.mp hb
    exact iff_of_true ⟨_, rfl⟩ ⟨b, hmem, by simpa using hk⟩

/-- The sum of the entries whose key is sent to `k'`. -/
def totalUnder (f : κ → κ') (k' : κ') (es : List (κ × α)) : α := ((under (fun e => f e.1) es k').map Prod.snd).sum

/-- Adding an amount to one entry adds it to the entry's sum. -/
theorem totalUnder_setEntry (f : κ → κ') (k' : κ') (k : κ) (a : α) (es : List (κ × α)) :
    totalUnder f k' (Dict.setEntry k ((((es.find? fun e => e.1 = k).map Prod.snd).getD 0) + a) es)
      = totalUnder f k' es + if f k = k' then a else 0 := by
  unfold totalUnder under
  induction es with
  | nil => by_cases hk : f k = k' <;> simp [Dict.setEntry, hk]
  | cons e es ih =>
      obtain ⟨k₀, v₀⟩ := e
      by_cases hk₀ : k₀ = k
      · subst hk₀
        by_cases hk : f k₀ = k'
        · simp [Dict.setEntry, hk, add_assoc, add_comm]
        · simp [Dict.setEntry, hk]
      · have hfind : ((k₀, v₀) :: es).find? (fun e => e.1 = k) = es.find? fun e => e.1 = k :=
          List.find?_cons_of_neg (by simpa using hk₀)
        rw [hfind]
        by_cases hk : f k₀ = k'
        · simp only [Dict.setEntry, if_neg hk₀, List.filter_cons, hk, decide_true, if_true, List.map_cons,
            List.sum_cons]
          rw [ih, add_assoc]
        · simp only [Dict.setEntry, if_neg hk₀, List.filter_cons, hk, decide_false, Bool.false_eq_true, if_false]
          exact ih

/-- The pooled totals under a coarser key add up to the sum over its items. -/
theorem totalUnder_pool (f : κ → κ') (k' : κ') (key : β → κ) (amount : β → α) (l : List β) :
    totalUnder f k' (pool key amount l).entries = ((under (fun b => f (key b)) l k').map amount).sum := by
  induction l using List.reverseRecOn with
  | nil => rfl
  | append_singleton l b ih =>
      have hset : (pool key amount (l ++ [b])).entries = Dict.setEntry (key b) (((((pool key amount l).entries.find?
          fun e => e.1 = key b).map Prod.snd).getD 0) + amount b) (pool key amount l).entries := by
        rw [pool_concat]
        rfl
      rw [hset, totalUnder_setEntry, ih]
      by_cases hk : f (key b) = k'
      · have hunder : under (fun b => f (key b)) (l ++ [b]) k' = _ := under_concat_self hk
        rw [if_pos hk, hunder, List.map_append, List.sum_append, List.map_singleton, List.sum_singleton]
      · have hunder : under (fun b => f (key b)) (l ++ [b]) k' = _ := under_concat_of_ne hk
        rw [if_neg hk, hunder, add_zero]

/-- **Totals can be pooled in stages.** -/
theorem pool_pool (f : κ → κ') (key : β → κ) (amount : β → α) (l : List β) (k' : κ') :
    (pool (fun b => f (key b)) amount l).get? k'
      = (pool (fun e => f e.1) Prod.snd (pool key amount l).entries).get? k' := by
  have hsum := totalUnder_pool f k' key amount l
  unfold totalUnder at hsum
  rw [get?_pool, get?_pool, hsum]
  -- a coarse key has items exactly when it has fine keys
  have hnil : under (fun b => f (key b)) l k' = [] ↔ under (fun e => f e.1) (pool key amount l).entries k' = [] := by
    unfold under
    rw [List.filter_eq_nil_iff, List.filter_eq_nil_iff]
    constructor
    · rintro h ⟨k, v⟩ he
      obtain ⟨b, hb, rfl⟩ := mem_keys_pool.mp (Dict.mem_keys_of_mem he)
      exact h b hb
    · intro h b hb
      have hkey : key b ∈ (pool key amount l).keys := mem_keys_pool.mpr ⟨b, hb, rfl⟩
      obtain ⟨v, hv⟩ := Dict.mem_keys_iff.mp hkey
      exact h _ hv
  by_cases h : under (fun b => f (key b)) l k' = []
  · rw [if_pos h, if_pos (hnil.mp h)]
  · rw [if_neg h, if_neg fun h' => h (hnil.mpr h')]

end Pool

end Lib
