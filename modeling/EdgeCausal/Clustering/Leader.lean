import Mathlib.Logic.Function.Basic
import Mathlib.Order.Lattice
import Mathlib.Tactic.Common

/-!
# `Clustering.Leader` — online leader clustering with families

Items arrive one at a time and are compared with the prototypes kept so far, which never move. An item near
a prototype is absorbed; one a little further joins that prototype's family as a new member; one further
still founds a family of its own. Similarity need not be transitive: what makes the library well separated
is only that it is symmetric, and that no item is stored without having been compared with all of it.
-/

namespace Lib

universe u v w

/-- A prototype, and the identifier of its family. -/
structure Member (ι : Type u) (κ : Type v) where
  proto : κ
  family : ι

/-- The prototypes by identifier. -/
abbrev Library (ι : Type u) (κ : Type v) := ι → Option (Member ι κ)

/-- The library without members. -/
def Library.empty {ι : Type u} {κ : Type v} : Library ι κ := fun _ => none

section
variable {ι : Type u} {κ : Type v} {α : Type w} [DecidableEq ι] [LinearOrder α]
variable (sim : κ → κ → α) (tauFamily tauMerge : α)

/-- One arrival. -/
inductive LeaderStep : Library ι κ → Library ι κ → Prop where
  /-- Absorbed, or ignored. -/
  | same {L} : LeaderStep L L
  /-- A new member of an existing family. -/
  | variant {L} {id best : ι} {key : κ} {b : Member ι κ} (hnew : L id = none) (hbest : L best = some b)
      (hfar : ∀ i m, L i = some m → sim key m.proto < tauMerge) :
      LeaderStep L (Function.update L id (some ⟨key, b.family⟩))
  /-- The founder of a new family. -/
  | novel {L} {id : ι} {key : κ} (hnew : L id = none)
      (hfar : ∀ i m, L i = some m → sim key m.proto < tauFamily) :
      LeaderStep L (Function.update L id (some ⟨key, id⟩))

/-- A member never leaves and never changes. -/
theorem LeaderStep.keeps {sim : κ → κ → α} {tauFamily tauMerge : α} {L L' : Library ι κ}
    (hs : LeaderStep sim tauFamily tauMerge L L') {i : ι} {m : Member ι κ} (h : L i = some m) :
    L' i = some m := by
  cases hs with
  | same => exact h
  | @variant id _ _ _ hnew =>
      have hne : i ≠ id := by
        rintro rfl
        rw [hnew] at h
        exact absurd h (by simp)
      rw [Function.update_of_ne hne]
      exact h
  | @novel id _ hnew =>
      have hne : i ≠ id := by
        rintro rfl
        rw [hnew] at h
        exact absurd h (by simp)
      rw [Function.update_of_ne hne]
      exact h

/-- Some member is near enough to absorb the item. -/
def Covered (L : Library ι κ) (key : κ) : Prop := ∃ i m, L i = some m ∧ tauMerge ≤ sim key m.proto

/-- **What is covered stays covered.** -/
theorem Covered.step {sim : κ → κ → α} {tauFamily tauMerge : α} {L L' : Library ι κ} {key : κ}
    (h : Covered sim tauMerge L key) (hs : LeaderStep sim tauFamily tauMerge L L') :
    Covered sim tauMerge L' key := by
  obtain ⟨i, m, hi, hsim⟩ := h
  exact ⟨i, m, hs.keeps hi, hsim⟩

/-- **Separation.** No two members would have been merged, every family is rooted in a member that belongs
    to its own family, and no two roots would have shared one. -/
structure Separated (L : Library ι κ) : Prop where
  members : ∀ i j m n, i ≠ j → L i = some m → L j = some n → sim m.proto n.proto < tauMerge
  rooted : ∀ i m, L i = some m → ∃ root, L m.family = some root ∧ root.family = m.family
  roots : ∀ i j m n, i ≠ j → L i = some m → L j = some n → m.family = i → n.family = j →
    sim m.proto n.proto < tauFamily

variable {sim tauFamily tauMerge} {L L' : Library ι κ}

omit [DecidableEq ι] in
theorem separated_empty : Separated sim tauFamily tauMerge (Library.empty : Library ι κ) := by
  refine ⟨?_, ?_, ?_⟩
  · intro i j m n _ hi
    exact absurd hi (by simp [Library.empty])
  · intro i m hi
    exact absurd hi (by simp [Library.empty])
  · intro i j m n _ hi
    exact absurd hi (by simp [Library.empty])

/-- A symmetric bound over two different members of an updated library follows from the old ones and from
    the new member against each old one. -/
theorem pairwise_update {P : ι → Member ι κ → Prop} {bound : α} (hsym : ∀ a b, sim a b = sim b a)
    {id : ι} {new : Member ι κ}
    (hold : ∀ i j m n, i ≠ j → L i = some m → L j = some n → P i m → P j n → sim m.proto n.proto < bound)
    (hfar : P id new → ∀ i m, L i = some m → P i m → sim new.proto m.proto < bound) :
    ∀ i j m n, i ≠ j → Function.update L id (some new) i = some m →
      Function.update L id (some new) j = some n → P i m → P j n → sim m.proto n.proto < bound := by
  intro i j m n hij hi hj hPi hPj
  -- at most one of the two is the new member
  by_cases hid : i = id
  · subst hid
    rw [Function.update_self] at hi
    rw [Function.update_of_ne (Ne.symm hij)] at hj
    obtain rfl := Option.some.inj hi
    exact hfar hPi j n hj hPj
  · rw [Function.update_of_ne hid] at hi
    by_cases hjd : j = id
    · subst hjd
      rw [Function.update_self] at hj
      obtain rfl := Option.some.inj hj
      rw [hsym]
      exact hfar hPj i m hi hPi
    · rw [Function.update_of_ne hjd] at hj
      exact hold i j m n hij hi hj hPi hPj

/-- A root stays a root when a member is added under a fresh identifier. -/
theorem rooted_update {id : ι} {new : Member ι κ} (hnew : L id = none)
    (h : ∀ i m, L i = some m → ∃ root, L m.family = some root ∧ root.family = m.family)
    (hroot : ∃ root, Function.update L id (some new) new.family = some root ∧ root.family = new.family) :
    ∀ i m, Function.update L id (some new) i = some m →
      ∃ root, Function.update L id (some new) m.family = some root ∧ root.family = m.family := by
  intro i m hi
  by_cases hid : i = id
  · subst hid
    rw [Function.update_self] at hi
    obtain rfl := Option.some.inj hi
    exact hroot
  · rw [Function.update_of_ne hid] at hi
    obtain ⟨root, hr, hfam⟩ := h i m hi
    -- the root was there before, so it is not the member just added
    have hne : m.family ≠ id := by
      intro he
      rw [he, hnew] at hr
      exact absurd hr (by simp)
    exact ⟨root, by rw [Function.update_of_ne hne]; exact hr, hfam⟩

/-- **Step.** An arrival keeps the library separated. -/
theorem Separated.step (hsym : ∀ a b, sim a b = sim b a) (hle : tauFamily ≤ tauMerge)
    (h : Separated sim tauFamily tauMerge L) (hs : LeaderStep sim tauFamily tauMerge L L') :
    Separated sim tauFamily tauMerge L' := by
  cases hs with
  | same => exact h
  | @variant id best key b hnew hbest hfar =>
      obtain ⟨root, hroot, hfam⟩ := h.rooted best b hbest
      have hne : b.family ≠ id := by
        intro he
        rw [he, hnew] at hroot
        exact absurd hroot (by simp)
      refine ⟨?_, ?_, ?_⟩
      · intro i j m n hij hi hj
        exact pairwise_update (P := fun _ _ => True) hsym
          (fun i j m n hij hi hj _ _ => h.members i j m n hij hi hj)
          (fun _ i m hi _ => hfar i m hi) i j m n hij hi hj trivial trivial
      · exact rooted_update hnew h.rooted ⟨root, by rw [Function.update_of_ne hne]; exact hroot, hfam⟩
      · -- the new member belongs to another's family, so it is no root
        exact pairwise_update (P := fun i m => m.family = i) hsym h.roots (fun hid => absurd hid hne)
  | @novel id key hnew hfar =>
      refine ⟨?_, ?_, ?_⟩
      · intro i j m n hij hi hj
        exact pairwise_update (P := fun _ _ => True) hsym
          (fun i j m n hij hi hj _ _ => h.members i j m n hij hi hj)
          (fun _ i m hi _ => (hfar i m hi).trans_le hle) i j m n hij hi hj trivial trivial
      · exact rooted_update hnew h.rooted ⟨⟨key, id⟩, Function.update_self .., rfl⟩
      · -- a founder is far from every member, so from every root
        exact pairwise_update (P := fun i m => m.family = i) hsym h.roots (fun _ i m hi _ => hfar i m hi)

end

end Lib
