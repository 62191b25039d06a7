import Mathlib

/-!
# `Collections.Extremum` — first extremal element, stable ordering, unordered pairs

List selections in which *which* of several tied elements is returned matters:

* `firstMax f` / `firstMin f` — the first element at which `f` is extremal (a later tie never wins);
* `sortOn key` — the stable ascending sort by a key;
* `pairs l` — every two positions of `l`, in order, each once.

Each is followed through the removal of items (`firstMax_filter`, `sortOn_id_filter`, `pairs_filter`).
-/

namespace Lib

universe u v

variable {α : Type u} {β : Type v}

/-! ## Loops over what is kept -/

section Kept
variable {P : α → Bool} {l : List α}

/-- A collecting loop over what is kept, when the items dropped would have added nothing. -/
theorem filterMap_kept {f f' : α → Option β} (hkeep : ∀ x ∈ l, P x = true → f' x = f x)
    (hdrop : ∀ x ∈ l, P x = false → f x = none) : (l.filter P).filterMap f' = l.filterMap f := by
  rw [List.filterMap_filter]
  refine List.filterMap_congr fun x hx => ?_
  cases hp : P x with
  | true => exact hkeep x hx hp
  | false => exact (hdrop x hx hp).symm

theorem flatMap_kept {f f' : α → List β} (hkeep : ∀ x ∈ l, P x = true → f' x = f x)
    (hdrop : ∀ x ∈ l, P x = false → f x = []) : (l.filter P).flatMap f' = l.flatMap f := by
  induction l with
  | nil => rfl
  | cons x xs ih =>
      have hxs := ih (fun y hy => hkeep y (List.mem_cons_of_mem x hy))
        (fun y hy => hdrop y (List.mem_cons_of_mem x hy))
      cases hp : P x with
      | true =>
          rw [List.filter_cons_of_pos hp, List.flatMap_cons, List.flatMap_cons, hxs,
            hkeep x List.mem_cons_self hp]
      | false =>
          rw [List.filter_cons_of_neg (by rw [hp]; simp), List.flatMap_cons, hxs, hdrop x List.mem_cons_self hp]
          rfl

end Kept

/-! ## First maximum -/

section Extremum
variable [LinearOrder β]

/-- The first element of `l` at which `f` is greatest. -/
def firstMax (f : α → β) : List α → Option α
  | [] => none
  | x :: xs => some (xs.foldl (fun best y => if f best < f y then y else best) x)

/-- The first element of `l` at which `f` is least. -/
def firstMin (f : α → β) (l : List α) : Option α := firstMax (fun x => OrderDual.toDual (f x)) l

/-- The running best of a fold is its start or a list element, and dominates both. -/
theorem foldl_best (f : α → β) (xs : List α) (x : α) :
    let m := xs.foldl (fun best y => if f best < f y then y else best) x
    (m = x ∨ m ∈ xs) ∧ f x ≤ f m ∧ ∀ y ∈ xs, f y ≤ f m := by
  -- the start changes as soon as a better item comes, so the induction is over any start
  induction xs generalizing x with
  | nil => simp
  | cons z zs ih =>
      by_cases hz : f x < f z
      · obtain ⟨hm, hx, hall⟩ := ih z
        simp only [List.foldl_cons, if_pos hz]
        refine ⟨Or.inr ?_, hz.le.trans hx, ?_⟩
        · rcases hm with h | h
          · rw [h]; exact List.mem_cons_self
          · exact List.mem_cons_of_mem z h
        · intro y hy
          rcases List.mem_cons.mp hy with rfl | hy
          · exact hx
          · exact hall y hy
      · obtain ⟨hm, hx, hall⟩ := ih x
        simp only [List.foldl_cons, if_neg hz]
        refine ⟨hm.imp id (List.mem_cons_of_mem z), hx, ?_⟩
        intro y hy
        rcases List.mem_cons.mp hy with rfl | hy
        · exact (not_lt.mp hz).trans hx
        · exact hall y hy

theorem firstMax_mem {f : α → β} {l : List α} {m : α} (h : firstMax f l = some m) : m ∈ l := by
  cases l with
  | nil => simp [firstMax] at h
  | cons x xs =>
      obtain rfl := Option.some.inj h
      rcases (foldl_best f xs x).1 with hm | hm
      · rw [hm]; exact List.mem_cons_self
      · exact List.mem_cons_of_mem x hm

theorem le_firstMax {f : α → β} {l : List α} {m : α} (h : firstMax f l = some m) :
    ∀ x ∈ l, f x ≤ f m := by
  cases l with
  | nil => simp [firstMax] at h
  | cons x xs =>
      obtain rfl := Option.some.inj h
      intro y hy
      rcases List.mem_cons.mp hy with rfl | hy
      · exact (foldl_best f xs y).2.1
      · exact (foldl_best f xs x).2.2 y hy

@[simp] theorem firstMax_eq_none_iff {f : α → β} {l : List α} : firstMax f l = none ↔ l = [] := by
  cases l <;> simp [firstMax]

/-- Which of the best item so far, if any, and the next one to keep. -/
def better (f : α → β) (y : α) : Option α → α
  | none => y
  | some b => if f b < f y then y else b

theorem foldl_better (f : α → β) (l : List α) :
    l.foldl (fun best y => some (better f y best)) none = firstMax f l := by
  cases l with
  | nil => rfl
  | cons x xs =>
      show xs.foldl (fun best y => some (better f y best)) (some x)
        = some (xs.foldl (fun best y => if f best < f y then y else best) x)
      induction xs generalizing x with
      | nil => rfl
      | cons z zs ih =>
          rw [List.foldl_cons, List.foldl_cons]
          exact ih _

theorem firstMax_concat (f : α → β) (l : List α) (y : α) :
    firstMax f (l ++ [y]) = some (better f y (firstMax f l)) := by
  rw [← foldl_better, ← foldl_better, List.foldl_append]
  rfl

/-- The first maximum, by what stands before it and after it. -/
theorem firstMax_eq_some_iff {f : α → β} {l : List α} {m : α} :
    firstMax f l = some m ↔ ∃ before after, l = before ++ m :: after ∧ (∀ x ∈ before, f x < f m) ∧
      ∀ x ∈ after, f x ≤ f m := by
  constructor
  · intro h
    induction l using List.reverseRecOn generalizing m with
    | nil => exact absurd h (by simp [firstMax])
    | append_singleton l y ih =>
        rw [firstMax_concat] at h
        obtain rfl := Option.some.inj h
        cases hl : firstMax f l with
        | none =>
            obtain rfl := firstMax_eq_none_iff.mp hl
            exact ⟨[], [], rfl, by simp, by simp⟩
        | some b =>
            unfold better
            dsimp only
            split
            · rename_i hlt
              exact ⟨l, [], rfl, fun x hx => (le_firstMax hl x hx).trans_lt hlt, by simp⟩
            · rename_i hge
              obtain ⟨before, after, rfl, hbefore, hafter⟩ := ih hl
              refine ⟨before, after ++ [y], by simp, hbefore, ?_⟩
              intro x hx
              rcases List.mem_append.mp hx with hx | hx
              · exact hafter x hx
              · obtain rfl := List.mem_singleton.mp hx
                exact not_lt.mp hge
  · rintro ⟨before, after, rfl, hbefore, hafter⟩
    rw [← foldl_better, List.foldl_append, List.foldl_cons, foldl_better]
    -- `m` beats the best of what is before it, and nothing after it beats `m`
    have htakes : better f m (firstMax f before) = m := by
      cases hb : firstMax f before with
      | none => rfl
      | some b => exact if_pos (hbefore b (firstMax_mem hb))
    rw [htakes]
    refine List.foldlRecOn (motive := fun best => best = some m) after _ rfl ?_
    rintro best rfl y hy
    exact congrArg some (if_neg (not_lt.mpr (hafter y hy)))

/-- Dropping items other than the first maximum does not move it. -/
theorem firstMax_filter {f : α → β} {l : List α} {m : α} (P : α → Bool) (h : firstMax f l = some m)
    (hm : P m = true) : firstMax f (l.filter P) = some m := by
  induction l using List.reverseRecOn generalizing m with
  | nil => exact absurd h (by simp [firstMax])
  | append_singleton l y ih =>
      rw [firstMax_concat] at h
      obtain rfl := Option.some.inj h
      rw [List.filter_append]
      cases hl : firstMax f l with
      | none =>
          obtain rfl := firstMax_eq_none_iff.mp hl
          have hy : P y = true := hm
          rw [List.filter_cons_of_pos hy]
          rfl
      | some b =>
          rw [hl] at hm
          unfold better at hm ⊢
          dsimp only at hm ⊢
          split at hm
          · -- the new item takes over, from whatever was kept before it
            rename_i hlt
            rw [if_pos hlt, List.filter_cons_of_pos hm, List.filter_nil, firstMax_concat]
            cases hf : firstMax f (l.filter P) with
            | none => rfl
            | some b' =>
                have hle : f b' ≤ f b := le_firstMax hl b' (List.mem_of_mem_filter (firstMax_mem hf))
                unfold better
                dsimp only
                rw [if_pos (hle.trans_lt hlt)]
          · rename_i hlt
            rw [if_neg hlt]
            have hkept := ih hl hm
            by_cases hy : P y = true
            · rw [List.filter_cons_of_pos hy, List.filter_nil, firstMax_concat, hkept]
              unfold better
              dsimp only
              rw [if_neg hlt]
            · rw [List.filter_cons_of_neg hy, List.filter_nil, List.append_nil]
              exact hkept

theorem firstMin_mem {f : α → β} {l : List α} {m : α} (h : firstMin f l = some m) : m ∈ l :=
  firstMax_mem h

theorem firstMin_le {f : α → β} {l : List α} {m : α} (h : firstMin f l = some m) :
    ∀ x ∈ l, f m ≤ f x := fun x hx => le_firstMax h x hx

@[simp] theorem firstMin_eq_none_iff {f : α → β} {l : List α} : firstMin f l = none ↔ l = [] :=
  firstMax_eq_none_iff

/-! ## Stable sort by a key -/

/-- The stable ascending sort of `l` by `key`. -/
def sortOn (key : α → β) (l : List α) : List α := l.insertionSort fun x y => key x ≤ key y

theorem sortOn_perm (key : α → β) (l : List α) : (sortOn key l).Perm l :=
  List.perm_insertionSort _ l

@[simp] theorem mem_sortOn {key : α → β} {l : List α} {x : α} : x ∈ sortOn key l ↔ x ∈ l :=
  List.mem_insertionSort _

@[simp] theorem sortOn_nil (key : α → β) : sortOn key [] = [] := rfl

theorem sortOn_pairwise (key : α → β) (l : List α) :
    (sortOn key l).Pairwise fun x y => key x ≤ key y := by
  have : Std.Total fun x y => key x ≤ key y := ⟨fun x y => le_total (key x) (key y)⟩
  have : IsTrans α fun x y => key x ≤ key y := ⟨fun _ _ _ => le_trans⟩
  exact List.pairwise_insertionSort _ l

/-- Sorting commutes with a map that the key does not see. -/
theorem map_sortOn {γ : Type*} (f : α → γ) (key : α → β) (key' : γ → β) (h : ∀ x, key' (f x) = key x)
    (l : List α) : (sortOn key l).map f = sortOn key' (l.map f) := by
  unfold sortOn
  refine List.map_insertionSort _ _ f l ?_
  intro a _ b _
  rw [h, h]

/-- Sorting commutes with a map that keeps the order of the keys. -/
theorem map_sortOn_of_le_iff {γ δ : Type*} [LinearOrder δ] (f : α → γ) {key : α → β} {key' : γ → δ}
    (h : ∀ x y, key' (f x) ≤ key' (f y) ↔ key x ≤ key y) (l : List α) :
    (sortOn key l).map f = sortOn key' (l.map f) := by
  unfold sortOn
  exact List.map_insertionSort _ _ f l fun a _ b _ => (h a b).symm

/-- Keys that agree on the list sort it alike. -/
theorem sortOn_congr {key key' : α → β} {l : List α} (h : ∀ x ∈ l, key x = key' x) :
    sortOn key l = sortOn key' l := by
  unfold sortOn
  have hmap := List.map_insertionSort (fun x y => key x ≤ key y) (fun x y => key' x ≤ key' y) id l
    (fun a ha b hb => by rw [h a ha, h b hb]; rfl)
  rwa [List.map_id, List.map_id] at hmap

/-- Sorting and dropping items commute. -/
theorem sortOn_id_filter (P : β → Bool) (l : List β) : sortOn id (l.filter P) = (sortOn id l).filter P := by
  have hanti : ∀ a b : β, a ∈ sortOn id (l.filter P) → b ∈ (sortOn id l).filter P →
      id a ≤ id b → id b ≤ id a → a = b := fun a b _ _ hab hba => le_antisymm hab hba
  apply List.Perm.eq_of_pairwise hanti (sortOn_pairwise id _) ((sortOn_pairwise id l).filter P)
  exact (sortOn_perm id _).trans ((sortOn_perm id l).filter P).symm

/-- The head of the sort is the one element whose key is least. -/
theorem head?_sortOn {key : α → β} {l : List α} {x : α} (hx : x ∈ l)
    (hmin : ∀ y ∈ l, y ≠ x → key x < key y) : (sortOn key l).head? = some x := by
  have hpair := sortOn_pairwise key l
  have hmem : ∀ y, y ∈ sortOn key l ↔ y ∈ l := fun y => mem_sortOn
  cases hs : sortOn key l with
  | nil =>
      rw [← hmem, hs] at hx
      exact absurd hx (by simp)
  | cons y ys =>
      rw [hs] at hpair hmem
      have hy : y ∈ l := (hmem y).mp List.mem_cons_self
      by_contra hne
      have hyx : y ≠ x := fun h => hne (by rw [h]; rfl)
      have hlt := hmin y hy hyx
      rcases List.mem_cons.mp ((hmem x).mpr hx) with rfl | hxs
      · exact hyx rfl
      · exact absurd (List.rel_of_pairwise_cons hpair hxs) (not_le.mpr hlt)

/-! ### Stability -/

/-- Two items of a duplicate-free list stand in one order only. -/
theorem not_sublist_swap {l : List α} (hl : l.Nodup) {a b : α} (h : [a, b].Sublist l) : ¬ [b, a].Sublist l := by
  induction l with
  | nil => exact absurd h (by simp)
  | cons x l ih =>
      obtain ⟨hx, hl⟩ := List.nodup_cons.mp hl
      intro hba
      cases h with
      | cons _ h =>
          cases hba with
          | cons _ hba => exact ih hl h hba
          | cons_cons _ hba => exact hx (h.subset (by simp))
      | cons_cons _ h =>
          cases hba with
          | cons _ hba => exact hx (hba.subset (by simp))
          | cons_cons _ hba => exact hx (h.subset (by simp))

/-- Of two items of a list one stands before the other. -/
theorem sublist_pair_or {l : List α} {a b : α} (ha : a ∈ l) (hb : b ∈ l) (hne : a ≠ b) :
    [a, b].Sublist l ∨ [b, a].Sublist l := by
  obtain ⟨before, after, rfl⟩ := List.append_of_mem ha
  rcases List.mem_append.mp hb with hb | hb
  · have hfirst : [b].Sublist before := List.singleton_sublist.mpr hb
    have hrest : [a].Sublist (a :: after) := List.singleton_sublist.mpr (by simp)
    exact Or.inr (hfirst.append hrest)
  · have hb' : b ∈ after := (List.mem_cons.mp hb).resolve_left hne.symm
    refine Or.inl (List.Sublist.trans ?_ (List.sublist_append_right before (a :: after)))
    exact List.Sublist.cons_cons a (List.singleton_sublist.mpr hb')

/-- Of two items the first maximum is the one that is greater, or stands first where neither is. -/
theorem firstMax_pair_iff {f : α → β} {l : List α} (hl : l.Nodup) {a b : α} (ha : a ∈ l) (hne : a ≠ b)
    (hall : ∀ x ∈ l, x = a ∨ x = b) :
    firstMax f l = some a ↔ b ∉ l ∨ f b < f a ∨ f b = f a ∧ [a, b].Sublist l := by
  constructor
  · intro h
    by_cases hb : b ∈ l
    · refine Or.inr ((le_firstMax h b hb).lt_or_eq.imp_right fun heq => ⟨heq, ?_⟩)
      obtain ⟨before, after, rfl, hbefore, -⟩ := firstMax_eq_some_iff.mp h
      rcases List.mem_append.mp hb with hb | hb
      · exact absurd heq (hbefore b hb).ne
      · have hb' : b ∈ after := (List.mem_cons.mp hb).resolve_left hne.symm
        exact (List.Sublist.cons_cons a (List.singleton_sublist.mpr hb')).trans (List.sublist_append_right _ _)
    · exact Or.inl hb
  · intro h
    cases hmax : firstMax f l with
    | none => exact absurd ha (by rw [firstMax_eq_none_iff.mp hmax]; simp)
    | some m =>
        rcases hall m (firstMax_mem hmax) with rfl | rfl
        · rfl
        · -- the other item would have to be greater, or to stand first
          have hle := le_firstMax hmax a ha
          rcases h with hm | hlt | ⟨heq, hsub⟩
          · exact absurd (firstMax_mem hmax) hm
          · exact absurd hlt (not_lt.mpr hle)
          · obtain ⟨before, after, rfl, hbefore, -⟩ := firstMax_eq_some_iff.mp hmax
            rcases List.mem_append.mp ha with ha | ha
            · exact absurd heq (hbefore a ha).ne'
            · have ha' : a ∈ after := (List.mem_cons.mp ha).resolve_left hne
              have hba : [m, a].Sublist (before ++ m :: after) :=
                (List.Sublist.cons_cons m (List.singleton_sublist.mpr ha')).trans
                  (List.sublist_append_right _ _)
              exact absurd hba (not_sublist_swap hl hsub)

/-- The sort keeps the order of items that stand the right way already. -/
theorem sortOn_stable {key : α → β} {l : List α} {a b : α} (h : [a, b].Sublist l) (hab : key a ≤ key b) :
    [a, b].Sublist (sortOn key l) := by
  have : Std.Total fun x y => key x ≤ key y := ⟨fun x y => le_total (key x) (key y)⟩
  have : IsTrans α fun x y => key x ≤ key y := ⟨fun _ _ _ => le_trans⟩
  exact List.pair_sublist_insertionSort hab h

/-- The head of the sort is the item that every other is above, or level with and behind. -/
theorem head?_sortOn_iff {key : α → β} {l : List α} (hl : l.Nodup) {x : α} (hx : x ∈ l) :
    (sortOn key l).head? = some x ↔ ∀ y ∈ l, y ≠ x → key x < key y ∨ key x = key y ∧ [x, y].Sublist l := by
  have hnodup : (sortOn key l).Nodup := (sortOn_perm key l).nodup_iff.mpr hl
  have hpair := sortOn_pairwise key l
  have hmem : ∀ y, y ∈ sortOn key l ↔ y ∈ l := fun y => mem_sortOn
  cases hs : sortOn key l with
  | nil =>
      rw [← hmem, hs] at hx
      exact absurd hx List.not_mem_nil
  | cons z zs =>
      rw [hs] at hpair hmem hnodup
      have hfirst : ∀ y ∈ zs, [z, y].Sublist (z :: zs) := fun y hy =>
        List.Sublist.cons_cons z (List.singleton_sublist.mpr hy)
      constructor
      · intro hz y hy hne
        obtain rfl : z = x := Option.some.inj hz
        have hys : y ∈ zs := (List.mem_cons.mp ((hmem y).mpr hy)).resolve_left hne
        refine (List.rel_of_pairwise_cons hpair hys).lt_or_eq.imp_right fun heq => ⟨heq, ?_⟩
        -- behind: the sort would not have moved it past the head
        rcases sublist_pair_or hx hy hne.symm with h | h
        · exact h
        · have hstable := sortOn_stable h heq.ge
          rw [hs] at hstable
          exact absurd hstable (not_sublist_swap hnodup (hfirst y hys))
      · intro h
        by_contra hne
        have hzx : z ≠ x := fun heq => hne (congrArg some heq)
        have hxs : x ∈ zs := (List.mem_cons.mp ((hmem x).mpr hx)).resolve_left hzx.symm
        have hle := List.rel_of_pairwise_cons hpair hxs
        rcases h z ((hmem z).mp List.mem_cons_self) hzx with hlt | ⟨heq, hsub⟩
        · exact absurd hle (not_le.mpr hlt)
        · have hstable := sortOn_stable hsub heq.le
          rw [hs] at hstable
          exact absurd hstable (not_sublist_swap hnodup (hfirst x hxs))

/-- Sorting a list that stands by a second key sorts it by both. -/
theorem sortOn_pairwise_both {γ : Type*} [LinearOrder γ] {key : α → β} {key' : α → γ} {l : List α}
    (hl : l.Nodup)
    (h : l.Pairwise fun x y => key' x ≤ key' y) :
    (sortOn key l).Pairwise fun x y => key x < key y ∨ key x = key y ∧ key' x ≤ key' y := by
  have hsorted := sortOn_pairwise key l
  have hnodup : (sortOn key l).Nodup := (sortOn_perm key l).nodup_iff.mpr hl
  rw [List.pairwise_iff_forall_sublist] at h hsorted ⊢
  intro a b hab
  rcases (hsorted hab).lt_or_eq with hlt | heq
  · exact Or.inl hlt
  · refine Or.inr ⟨heq, ?_⟩
    have ha : a ∈ l := mem_sortOn.mp (hab.subset (by simp))
    have hb : b ∈ l := mem_sortOn.mp (hab.subset (by simp))
    by_cases hne : a = b
    · rw [hne]
    · -- equal keys are not moved past each other
      rcases sublist_pair_or ha hb hne with hl | hl
      · exact h hl
      · exact absurd (sortOn_stable hl heq.ge) (not_sublist_swap hnodup hab)

end Extremum

/-! ## Unordered pairs -/

/-- Every two positions of `l`, earlier element first. -/
def pairs : List α → List (α × α)
  | [] => []
  | x :: xs => xs.map (Prod.mk x) ++ pairs xs

theorem mem_of_mem_pairs {l : List α} {a b : α} (h : (a, b) ∈ pairs l) : a ∈ l ∧ b ∈ l := by
  induction l with
  | nil => simp [pairs] at h
  | cons x xs ih =>
      simp only [pairs, List.mem_append, List.mem_map, Prod.mk.injEq] at h
      rcases h with ⟨y, hy, rfl, rfl⟩ | h
      · exact ⟨List.mem_cons_self, List.mem_cons_of_mem _ hy⟩
      · exact ⟨List.mem_cons_of_mem _ (ih h).1, List.mem_cons_of_mem _ (ih h).2⟩

/-- The pairs of what is kept are the pairs both of whose items are kept. -/
theorem pairs_filter (P : α → Bool) (l : List α) :
    pairs (l.filter P) = (pairs l).filter fun ab => P ab.1 && P ab.2 := by
  induction l with
  | nil => rfl
  | cons x xs ih =>
      show _ = (xs.map (Prod.mk x) ++ pairs xs).filter fun ab => P ab.1 && P ab.2
      rw [List.filter_append, List.filter_map, ← ih]
      by_cases hx : P x = true
      · rw [List.filter_cons_of_pos hx]
        show (xs.filter P).map (Prod.mk x) ++ pairs (xs.filter P) = _
        congr 2
        exact List.filter_congr fun y _ => by simp [hx]
      · -- no pair that starts with a dropped item is kept
        rw [List.filter_cons_of_neg hx]
        have hnil : xs.filter ((fun ab : α × α => P ab.1 && P ab.2) ∘ Prod.mk x) = [] := by
          rw [List.filter_eq_nil_iff]
          intro y _ hy
          exact hx (by simpa using (Bool.and_eq_true_iff.mp hy).1)
        rw [hnil]
        rfl

/-- A pair of positions is related by every relation the list is pairwise in. -/
theorem rel_of_mem_pairs {R : α → α → Prop} {l : List α} (hl : l.Pairwise R) {a b : α}
    (h : (a, b) ∈ pairs l) : R a b := by
  induction l with
  | nil => simp [pairs] at h
  | cons x xs ih =>
      rw [List.pairwise_cons] at hl
      simp only [pairs, List.mem_append, List.mem_map, Prod.mk.injEq] at h
      rcases h with ⟨y, hy, rfl, rfl⟩ | h
      · exact hl.1 y hy
      · exact ih hl.2 h

/-- Over a duplicate-free list no unordered pair is listed twice. -/
theorem pairs_pairwise {l : List α} (hl : l.Nodup) :
    (pairs l).Pairwise fun p q => p ≠ q ∧ p ≠ q.swap := by
  induction l with
  | nil => simp [pairs]
  | cons x xs ih =>
      rw [List.nodup_cons] at hl
      simp only [pairs, List.pairwise_append, List.pairwise_map]
      refine ⟨?_, ih hl.2, ?_⟩
      · refine List.Pairwise.imp_of_mem ?_ hl.2
        intro a b ha _ hab
        refine ⟨by simpa using hab, ?_⟩
        intro h
        obtain ⟨-, rfl⟩ := Prod.mk.inj h
        exact hl.1 ha
      · -- a pair that starts with `x` against a pair of the rest, where `x` does not occur
        intro p hp q hq
        obtain ⟨y, -, rfl⟩ := List.mem_map.mp hp
        obtain ⟨q1, q2⟩ := q
        have hmem := mem_of_mem_pairs hq
        refine ⟨?_, ?_⟩ <;> intro h <;> obtain ⟨rfl, -⟩ := Prod.mk.inj h
        · exact hl.1 hmem.1
        · exact hl.1 hmem.2

end Lib
