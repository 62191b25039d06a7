import Mathlib.Data.List.DropRight
import Mathlib.Tactic.Common

/-!
# `Collections.Text` — cutting lines of text

The two operations of a line-based reader, on lists: cutting off the edges (`trim`) and cutting at the first
occurrence of a pattern (`cut`). What was put around a text that is tight at its edges is trimmed off again, and
what was put after a text without the pattern is cut off again.
-/

namespace Lib

universe u

variable {α : Type u}

/-- A first part without the separator is where the first separator ends it. -/
theorem append_cons_inj {sep : α} {a a' b b' : List α} (ha : sep ∉ a) (ha' : sep ∉ a')
    (h : a ++ sep :: b = a' ++ sep :: b') : a = a' ∧ b = b' := by
  induction a generalizing a' with
  | nil =>
      cases a' with
      | nil => exact ⟨rfl, (List.cons.inj h).2⟩
      | cons c a' => exact absurd ((List.cons.inj h).1 ▸ List.mem_cons_self) ha'
  | cons c a ih =>
      cases a' with
      | nil => exact absurd ((List.cons.inj h).1 ▸ List.mem_cons_self) ha
      | cons c' a' =>
          obtain ⟨rfl, hrest⟩ := List.cons.inj h
          obtain ⟨rfl, hb⟩ := ih (fun hm => ha (List.mem_cons_of_mem _ hm))
            (fun hm => ha' (List.mem_cons_of_mem _ hm)) hrest
          exact ⟨rfl, hb⟩

/-! ## Trimming -/

section Trim
variable (p : α → Bool) {a b l : List α} {c : α}

/-- Drop what satisfies `p` at both ends. -/
def trim (l : List α) : List α := (l.dropWhile p).rdropWhile p

/-- Nothing to trim at either end. -/
structure Tight (l : List α) : Prop where
  left : ∀ c ∈ l.head?, p c = false
  right : ∀ c ∈ l.getLast?, p c = false

instance (l : List α) : Decidable (Tight p l) :=
  decidable_of_iff ((∀ c ∈ l.head?, p c = false) ∧ ∀ c ∈ l.getLast?, p c = false)
    ⟨fun h => ⟨h.1, h.2⟩, fun h => ⟨h.left, h.right⟩⟩

variable {p}

theorem rdropWhile_append_of_all (h : ∀ c ∈ b, p c = true) : (l ++ b).rdropWhile p = l.rdropWhile p := by
  induction b using List.reverseRecOn with
  | nil => rw [List.append_nil]
  | append_singleton b c ih =>
      rw [← List.append_assoc, List.rdropWhile_concat_pos _ _ _ (h c (by simp))]
      exact ih fun x hx => h x (List.mem_append_left _ hx)

/-- Trimming from the right stops at what is kept. -/
theorem rdropWhile_append_cons (hc : p c = false) (a b : List α) :
    (a ++ c :: b).rdropWhile p = a ++ c :: b.rdropWhile p := by
  induction b using List.reverseRecOn with
  | nil => rw [List.rdropWhile_concat_neg _ _ _ (by simp [hc]), List.rdropWhile_nil]
  | append_singleton b d ih =>
      have hshift : a ++ c :: (b ++ [d]) = (a ++ c :: b) ++ [d] := by simp
      rw [hshift]
      cases hd : p d with
      | true => rw [List.rdropWhile_concat_pos _ _ _ hd, ih, List.rdropWhile_concat_pos _ _ _ hd]
      | false =>
          rw [List.rdropWhile_concat_neg _ _ _ (by simp [hd]), List.rdropWhile_concat_neg _ _ _ (by simp [hd])]
          simp

theorem trim_append_left (h : ∀ c ∈ a, p c = true) : trim p (a ++ l) = trim p l := by
  unfold trim
  rw [List.dropWhile_append_of_pos h]

theorem trim_append_right (h : ∀ c ∈ b, p c = true) : trim p (l ++ b) = trim p l := by
  unfold trim
  rw [List.dropWhile_append]
  split
  · rename_i hnil
    have hb : b.dropWhile p = [] := List.dropWhile_eq_nil_iff.mpr h
    rw [hb, List.isEmpty_iff.mp hnil]
  · exact rdropWhile_append_of_all h

/-- A text whose first character stays is only trimmed from the right. -/
theorem trim_cons (hc : p c = false) (l : List α) : trim p (c :: l) = c :: l.rdropWhile p := by
  unfold trim
  rw [List.dropWhile_cons_of_neg (by simp [hc])]
  exact rdropWhile_append_cons hc [] l

theorem trim_of_tight (h : Tight p l) : trim p l = l := by
  cases l with
  | nil => rfl
  | cons c l =>
      unfold trim
      rw [List.dropWhile_cons_of_neg (by simp [h.left c rfl]), List.rdropWhile_eq_self_iff]
      intro hne
      simpa using h.right _ (List.getLast?_eq_getLast_of_ne_nil hne)

/-- Trimming from the right by less does not change a trim. -/
theorem trim_rdropWhile {q : α → Bool} (hle : ∀ c, q c = true → p c = true) (l : List α) :
    trim p (l.rdropWhile q) = trim p l := by
  have hsplit : l.rdropWhile q ++ l.rtakeWhile q = l := List.rdropWhile_append_rtakeWhile
  conv_rhs => rw [← hsplit]
  exact (trim_append_right fun c hc => hle c (List.mem_rtakeWhile_imp hc)).symm

end Trim

/-! ## Cutting -/

section Cut
variable [DecidableEq α] {pat a b l : List α} {c : α}

/-- What stands before and after the first occurrence of a pattern. -/
def cut (pat : List α) : List α → Option (List α × List α)
  | [] => if pat = [] then some ([], []) else none
  | c :: l =>
      if pat.isPrefixOf (c :: l) then some ([], (c :: l).drop pat.length)
      else (cut pat l).map fun ab => (c :: ab.1, ab.2)

/-- Without an occurrence there is nothing to cut at. -/
theorem cut_eq_none (h : ¬ pat <:+: l) : cut pat l = none := by
  induction l with
  | nil =>
      unfold cut
      rw [if_neg]
      rintro rfl
      exact h List.nil_infix
  | cons c l ih =>
      have hhead : pat.isPrefixOf (c :: l) = false := by
        rw [Bool.eq_false_iff]
        exact fun hp => h (List.isPrefixOf_iff_prefix.mp hp).isInfix
      unfold cut
      rw [hhead, ih fun hl => h (hl.trans (List.suffix_cons c l).isInfix)]
      simp

/-- **The cut is at the first separator.** -/
theorem cut_char (h : c ∉ a) (b : List α) : cut [c] (a ++ c :: b) = some (a, b) := by
  induction a with
  | nil => simp [cut, List.isPrefixOf]
  | cons d a ih =>
      obtain ⟨hd, ha⟩ := not_or.mp (List.mem_cons.not.mp h)
      rw [List.cons_append, cut, ih ha]
      simp [List.isPrefixOf, hd]

/-- **The cut is at the first pair**, when the pair does not occur before it. -/
theorem cut_pair {d : α} (hcd : c ≠ d) (h : ¬ [c, d] <:+: a) (b : List α) :
    cut [c, d] (a ++ c :: d :: b) = some (a, b) := by
  induction a with
  | nil => simp [cut, List.isPrefixOf]
  | cons e a ih =>
      have ha : ¬ [c, d] <:+: a := fun hl => h (hl.trans (List.suffix_cons e a).isInfix)
      have hhead : [c, d].isPrefixOf (e :: (a ++ c :: d :: b)) = false := by
        rw [Bool.eq_false_iff]
        intro hp
        obtain ⟨rest, hrest⟩ := List.isPrefixOf_iff_prefix.mp hp
        cases a with
        | nil =>
            -- the next character begins the pattern, so it does not end it
            simp only [List.cons_append, List.nil_append, List.cons.injEq] at hrest
            exact hcd hrest.2.1.symm
        | cons f a =>
            simp only [List.cons_append, List.nil_append, List.cons.injEq] at hrest
            obtain ⟨rfl, rfl, -⟩ := hrest
            exact h ⟨[], a, rfl⟩
      rw [List.cons_append, cut, hhead, ih ha]
      simp

end Cut

end Lib
