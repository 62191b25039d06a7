import Mathlib.Data.List.Induction
import Mathlib.Data.List.Nodup
import Mathlib.Data.List.Lookmap
import Mathlib.Tactic.Common

/-!
# `Collections.Dict` — insertion-ordered dictionaries

A finite map that remembers the order in which its keys were first written: iteration follows
insertion order, `set` on a present key keeps the key's position, and `reinsert` drops the old entry
and writes the new one at the end (what a table does when it replaces a row). Key uniqueness is a
field, so every operation re-establishes it once, here, and no client proves it again.

The `get?` lemmas are the API: each operation has one, and clients reason by rewriting with them.
-/

namespace Lib

universe u v w

/-- An insertion-ordered dictionary; no key occurs twice. -/
structure Dict (κ : Type u) (α : Type v) where
  entries : List (κ × α)
  nodup : (entries.map Prod.fst).Nodup

namespace Dict

variable {κ : Type u} {α : Type v} {β : Type w}

@[ext] theorem ext' {d e : Dict κ α} (h : d.entries = e.entries) : d = e := by
  cases d; cases e; cases h; rfl

instance [DecidableEq κ] [DecidableEq α] : DecidableEq (Dict κ α) :=
  fun _ _ => decidable_of_iff _ ⟨ext', congrArg entries⟩

/-- The dictionary with no entries. -/
def empty : Dict κ α := ⟨[], List.nodup_nil⟩

instance : EmptyCollection (Dict κ α) := ⟨empty⟩

/-- Keys, in insertion order. -/
def keys (d : Dict κ α) : List κ := d.entries.map Prod.fst

/-- Values, in insertion order. -/
def values (d : Dict κ α) : List α := d.entries.map Prod.snd

theorem keys_nodup (d : Dict κ α) : d.keys.Nodup := d.nodup

@[simp] theorem entries_empty : (∅ : Dict κ α).entries = [] := rfl
@[simp] theorem keys_empty : (∅ : Dict κ α).keys = [] := rfl
@[simp] theorem values_empty : (∅ : Dict κ α).values = [] := rfl

theorem mem_keys_of_mem {d : Dict κ α} {k : κ} {v : α} (h : (k, v) ∈ d.entries) : k ∈ d.keys :=
  List.mem_map.mpr ⟨(k, v), h, rfl⟩

theorem mem_keys_iff {d : Dict κ α} {k : κ} : k ∈ d.keys ↔ ∃ v, (k, v) ∈ d.entries := by
  constructor
  · intro h
    obtain ⟨⟨k', v⟩, hm, rfl⟩ := List.mem_map.mp h
    exact ⟨v, hm⟩
  · rintro ⟨v, hm⟩; exact mem_keys_of_mem hm

/-- Two entries with one key are the same entry. -/
theorem value_unique {d : Dict κ α} {k : κ} {v w : α}
    (hv : (k, v) ∈ d.entries) (hw : (k, w) ∈ d.entries) : v = w := by
  have h := List.inj_on_of_nodup_map d.nodup hv hw rfl
  exact congrArg Prod.snd h

/-! ## Rewriting the values -/

/-- Keep the entries on which `f` is defined, with their new value; keys keep their order. -/
def filterMap (d : Dict κ α) (f : κ → α → Option β) : Dict κ β where
  entries := d.entries.filterMap fun e => (f e.1 e.2).map (Prod.mk e.1)
  nodup := by
    have hsub : ((d.entries.filterMap fun e => (f e.1 e.2).map (Prod.mk e.1)).map Prod.fst).Sublist
        (d.entries.map Prod.fst) := by
      generalize d.entries = l
      induction l with
      | nil => simp
      | cons e l ih =>
          cases hf : f e.1 e.2 with
          | none => simpa [hf] using ih.cons e.1
          | some b => simpa [hf] using ih
    exact hsub.nodup d.nodup

/-- Apply `f` to every value. -/
def mapVals (d : Dict κ α) (f : κ → α → β) : Dict κ β where
  entries := d.entries.map fun e => (e.1, f e.1 e.2)
  nodup := by
    have h : (d.entries.map fun e => (e.1, f e.1 e.2)).map Prod.fst = d.entries.map Prod.fst := by
      simp
    rw [h]; exact d.nodup

theorem mem_filterMap {d : Dict κ α} {f : κ → α → Option β} {k : κ} {b : β} :
    (k, b) ∈ (d.filterMap f).entries ↔ ∃ a, (k, a) ∈ d.entries ∧ f k a = some b := by
  simp only [filterMap, List.mem_filterMap, Option.map_eq_some_iff, Prod.mk.injEq, Prod.exists]
  constructor
  · rintro ⟨k', a, hm, b', hf, rfl, rfl⟩; exact ⟨a, hm, hf⟩
  · rintro ⟨a, hm, hf⟩; exact ⟨k, a, hm, b, hf, rfl, rfl⟩

@[simp] theorem keys_mapVals (d : Dict κ α) (f : κ → α → β) : (d.mapVals f).keys = d.keys := by
  simp [keys, mapVals]

/-- Delete one key. -/
def erase [DecidableEq κ] (d : Dict κ α) (k : κ) : Dict κ α where
  entries := d.entries.filter fun e => e.1 ≠ k
  nodup := (List.filter_sublist.map Prod.fst).nodup d.nodup

section Lookup
variable [DecidableEq κ]

/-! ## Reading -/

/-- The value stored under `k`, if any. -/
def get? (d : Dict κ α) (k : κ) : Option α := (d.entries.find? fun e => e.1 = k).map Prod.snd

@[simp] theorem get?_empty (k : κ) : (∅ : Dict κ α).get? k = none := rfl

theorem get?_eq_some_iff {d : Dict κ α} {k : κ} {v : α} :
    d.get? k = some v ↔ (k, v) ∈ d.entries := by
  unfold get?
  constructor
  · intro h
    obtain ⟨⟨k', v'⟩, hf, rfl⟩ := Option.map_eq_some_iff.mp h
    have hk : k' = k := by simpa using List.find?_some hf
    exact hk ▸ List.mem_of_find?_eq_some hf
  · intro h
    cases hf : d.entries.find? (fun e => e.1 = k) with
    | none => exact absurd (List.find?_eq_none.mp hf (k, v) h) (by simp)
    | some e =>
        have hk : e.1 = k := by simpa using List.find?_some hf
        have hm : (k, e.2) ∈ d.entries := hk ▸ List.mem_of_find?_eq_some hf
        simp [value_unique hm h]

theorem get?_eq_none_iff {d : Dict κ α} {k : κ} : d.get? k = none ↔ k ∉ d.keys := by
  rw [mem_keys_iff, Option.eq_none_iff_forall_ne_some]
  simp only [ne_eq, get?_eq_some_iff, not_exists]

theorem mem_keys_iff_get? {d : Dict κ α} {k : κ} : k ∈ d.keys ↔ ∃ v, d.get? k = some v := by
  simp only [mem_keys_iff, get?_eq_some_iff]

theorem mem_values_iff_get? {d : Dict κ α} {v : α} : v ∈ d.values ↔ ∃ k, d.get? k = some v := by
  simp [values, get?_eq_some_iff]

/-- Values that tell their keys. -/
theorem values_map_eq_keys {d : Dict κ α} {f : α → κ} (h : ∀ k v, d.get? k = some v → f v = k) :
    d.values.map f = d.keys := by
  unfold values keys
  rw [List.map_map]
  apply List.map_congr_left
  rintro ⟨k, v⟩ hkv
  exact h k v (get?_eq_some_iff.mpr hkv)

theorem get?_filterMap (d : Dict κ α) (f : κ → α → Option β) (k : κ) :
    (d.filterMap f).get? k = (d.get? k).bind (f k) := by
  apply Option.ext
  intro b
  rw [get?_eq_some_iff, mem_filterMap, Option.bind_eq_some_iff]
  simp only [get?_eq_some_iff]

theorem get?_mapVals (d : Dict κ α) (f : κ → α → β) (k : κ) :
    (d.mapVals f).get? k = (d.get? k).map (f k) := by
  apply Option.ext
  intro b
  rw [get?_eq_some_iff, Option.map_eq_some_iff]
  simp only [get?_eq_some_iff, mapVals, List.mem_map, Prod.mk.injEq, Prod.exists]
  constructor
  · rintro ⟨k', a, hm, rfl, rfl⟩; exact ⟨a, hm, rfl⟩
  · rintro ⟨a, hm, rfl⟩; exact ⟨k, a, hm, rfl, rfl⟩

theorem get?_erase (d : Dict κ α) (k k' : κ) :
    (d.erase k).get? k' = if k' = k then none else d.get? k' := by
  apply Option.ext
  intro b
  by_cases hk : k' = k
  · subst hk; simp [get?_eq_some_iff, erase]
  · simp [get?_eq_some_iff, erase, hk]

theorem keys_erase (d : Dict κ α) (k : κ) : (d.erase k).keys = d.keys.filter (· ≠ k) := by
  unfold keys erase
  rw [List.filter_map]
  rfl

/-- Deleting a key commutes with a partial rewriting of the values, whatever becomes of the key's own. -/
theorem filterMap_erase {f g : κ → α → Option β} {k : κ} (h : ∀ k' v, k' ≠ k → f k' v = g k' v)
    (d : Dict κ α) : (d.erase k).filterMap f = (d.filterMap g).erase k := by
  apply ext'
  show (d.entries.filter fun e => e.1 ≠ k).filterMap (fun e => (f e.1 e.2).map (Prod.mk e.1))
    = (d.entries.filterMap fun e => (g e.1 e.2).map (Prod.mk e.1)).filter fun e => e.1 ≠ k
  induction d.entries with
  | nil => rfl
  | cons e es ih =>
      by_cases he : e.1 = k
      · rw [List.filter_cons_of_neg (by simpa using he), ih, List.filterMap_cons]
        cases g e.1 e.2 with
        | none => rfl
        | some b => exact (List.filter_cons_of_neg (by simpa using he)).symm
      · rw [List.filter_cons_of_pos (by simpa using he), List.filterMap_cons, List.filterMap_cons, ih,
          h e.1 e.2 he]
        cases g e.1 e.2 with
        | none => rfl
        | some b => exact (List.filter_cons_of_pos (by simpa using he)).symm

theorem mapVals_erase (d : Dict κ α) (f : κ → α → β) (k : κ) :
    (d.erase k).mapVals f = (d.mapVals f).erase k := by
  apply ext'
  show (d.entries.filter fun e => e.1 ≠ k).map (fun e => (e.1, f e.1 e.2))
    = (d.entries.map fun e => (e.1, f e.1 e.2)).filter fun e => e.1 ≠ k
  rw [List.filter_map]
  rfl

theorem get?_erase_of_ne {d : Dict κ α} {k k' : κ} (h : k' ≠ k) : (d.erase k).get? k' = d.get? k' := by
  rw [get?_erase, if_neg h]

theorem mem_keys_erase {d : Dict κ α} {k k' : κ} : k' ∈ (d.erase k).keys ↔ k' ∈ d.keys ∧ k' ≠ k := by
  simp only [mem_keys_iff, erase, List.mem_filter, decide_eq_true_eq]
  exact ⟨fun ⟨v, h, hk⟩ => ⟨⟨v, h⟩, hk⟩, fun ⟨⟨v, h⟩, hk⟩ => ⟨v, h, hk⟩⟩

/-! ## Writing -/

/-- Overwrite `k` in place, or append it when it is new. -/
def setEntry (k : κ) (v : α) : List (κ × α) → List (κ × α)
  | [] => [(k, v)]
  | e :: es => if e.1 = k then (k, v) :: es else e :: setEntry k v es

theorem map_fst_setEntry (k : κ) (v : α) (es : List (κ × α)) :
    (setEntry k v es).map Prod.fst
      = if k ∈ es.map Prod.fst then es.map Prod.fst else es.map Prod.fst ++ [k] := by
  induction es with
  | nil => simp [setEntry]
  | cons e es ih =>
      by_cases he : e.1 = k
      · simp [setEntry, he]
      · have he' : ¬ k = e.1 := fun h => he h.symm
        simp only [setEntry, if_neg he, List.map_cons, ih, List.mem_cons, he', false_or]
        split <;> simp

/-- A key that is not in the front part is written in the back part. -/
theorem setEntry_append {k : κ} {v : α} {es es' : List (κ × α)} (h : k ∉ es.map Prod.fst) :
    setEntry k v (es ++ es') = es ++ setEntry k v es' := by
  induction es with
  | nil => rfl
  | cons e es ih =>
      rw [List.map_cons, List.mem_cons, not_or] at h
      rw [List.cons_append, setEntry, if_neg (Ne.symm h.1), ih h.2, List.cons_append]

theorem mem_of_mem_setEntry {k : κ} {v : α} {es : List (κ × α)} {x : κ × α} (h : x ∈ setEntry k v es) :
    x = (k, v) ∨ x ∈ es := by
  induction es with
  | nil => exact Or.inl (List.mem_singleton.mp h)
  | cons e es ih =>
      unfold setEntry at h
      split at h
      · rcases List.mem_cons.mp h with h | h
        · exact Or.inl h
        · exact Or.inr (List.mem_cons_of_mem e h)
      · rcases List.mem_cons.mp h with h | h
        · exact Or.inr (h ▸ List.mem_cons_self)
        · exact (ih h).imp_right (List.mem_cons_of_mem e)

/-- `d[k] = v`: an existing key keeps its position, a new one goes last. -/
def set (d : Dict κ α) (k : κ) (v : α) : Dict κ α where
  entries := setEntry k v d.entries
  nodup := by
    rw [map_fst_setEntry]
    split
    · exact d.nodup
    · rename_i hk
      exact List.Nodup.append d.nodup (List.nodup_singleton k) (by simpa using hk)

theorem mem_setEntry {k k' : κ} {v v' : α} {es : List (κ × α)} (hnd : (es.map Prod.fst).Nodup) :
    (k', v') ∈ setEntry k v es ↔ (k' = k ∧ v' = v) ∨ (k' ≠ k ∧ (k', v') ∈ es) := by
  induction es with
  | nil => by_cases h : k' = k <;> simp [setEntry, h]
  | cons e es ih =>
      obtain ⟨ek, ev⟩ := e
      simp only [List.map_cons, List.nodup_cons] at hnd
      by_cases he : ek = k
      · subst he
        have hne : (k', v') ∈ es → k' ≠ ek := by
          rintro hm rfl; exact hnd.1 (List.mem_map.mpr ⟨_, hm, rfl⟩)
        by_cases h : k' = ek
        · subst h
          simp only [setEntry, if_true, List.mem_cons, Prod.mk.injEq, true_and, ne_eq,
            not_true_eq_false, false_and, or_false]
          exact ⟨fun hm => hm.elim id (fun hm => absurd rfl (hne hm)), Or.inl⟩
        · simp [setEntry, h]
      · simp only [setEntry, if_neg he, List.mem_cons, ih hnd.2, Prod.mk.injEq]
        by_cases h : k' = k
        · subst h; simp [Ne.symm he]
        · simp [h]

theorem get?_set (d : Dict κ α) (k k' : κ) (v : α) :
    (d.set k v).get? k' = if k' = k then some v else d.get? k' := by
  apply Option.ext
  intro b
  rw [get?_eq_some_iff, set, mem_setEntry d.nodup]
  by_cases hk : k' = k
  · simp [hk, eq_comm]
  · simp [hk, get?_eq_some_iff]

theorem mem_keys_set {d : Dict κ α} {k k' : κ} {v : α} :
    k' ∈ (d.set k v).keys ↔ k' = k ∨ k' ∈ d.keys := by
  rw [mem_keys_iff_get?, mem_keys_iff_get?]
  simp only [get?_set]
  by_cases hk : k' = k <;> simp [hk]

theorem setEntry_eq_self {k : κ} {v : α} {es : List (κ × α)} (hnd : (es.map Prod.fst).Nodup)
    (hmem : (k, v) ∈ es) : setEntry k v es = es := by
  induction es with
  | nil => exact absurd hmem List.not_mem_nil
  | cons e es ih =>
      rw [List.map_cons, List.nodup_cons] at hnd
      unfold setEntry
      rcases List.mem_cons.mp hmem with rfl | hmem
      · rw [if_pos rfl]
      · have hne : e.1 ≠ k := fun he => hnd.1 (he ▸ List.mem_map_of_mem hmem)
        rw [if_neg hne, ih hnd.2 hmem]

/-- Writing what is there already changes nothing. -/
theorem set_eq_self {d : Dict κ α} {k : κ} {v : α} (h : d.get? k = some v) : d.set k v = d :=
  ext' (setEntry_eq_self d.nodup (get?_eq_some_iff.mp h))

/-- An existing key keeps the keys as they are. -/
theorem keys_set_of_mem {d : Dict κ α} {k : κ} {v : α} (h : k ∈ d.keys) : (d.set k v).keys = d.keys := by
  show (setEntry k v d.entries).map Prod.fst = d.keys
  rw [map_fst_setEntry]
  exact if_pos h

/-- A new key is written last. -/
theorem keys_set_of_not_mem {d : Dict κ α} {k : κ} {v : α} (h : k ∉ d.keys) :
    (d.set k v).keys = d.keys ++ [k] := by
  show (setEntry k v d.entries).map Prod.fst = d.keys ++ [k]
  rw [map_fst_setEntry]
  exact if_neg h

/-- Rewriting the values commutes with writing one of them. -/
theorem mapVals_set (d : Dict κ α) (f : κ → α → β) (k : κ) (v : α) :
    (d.set k v).mapVals f = (d.mapVals f).set k (f k v) := by
  apply ext'
  show (setEntry k v d.entries).map (fun e => (e.1, f e.1 e.2))
    = setEntry k (f k v) (d.entries.map fun e => (e.1, f e.1 e.2))
  induction d.entries with
  | nil => rfl
  | cons e es ih =>
      by_cases he : e.1 = k
      · simp [setEntry, he]
      · simp [setEntry, he, ih]

/-- Replace the row of `k`: the old entry goes, the new one is written last. -/
def reinsert (d : Dict κ α) (k : κ) (v : α) : Dict κ α where
  entries := (d.erase k).entries ++ [(k, v)]
  nodup := by
    rw [List.map_append]
    refine List.Nodup.append (d.erase k).nodup (by simp) ?_
    intro x hx hx'
    simp only [List.map_cons, List.map_nil, List.mem_singleton] at hx'
    exact (mem_keys_erase.mp hx).2 hx'

theorem get?_reinsert (d : Dict κ α) (k k' : κ) (v : α) :
    (d.reinsert k v).get? k' = if k' = k then some v else d.get? k' := by
  have he := get?_erase d k k'
  apply Option.ext
  intro b
  have he' := Option.ext_iff.mp he b
  rw [get?_eq_some_iff] at he'
  rw [get?_eq_some_iff, reinsert, List.mem_append, he', List.mem_singleton, Prod.mk.injEq]
  by_cases hk : k' = k
  · simp [hk, eq_comm]
  · simp [hk]

/-- **A loop of row updates, seen from one key.** When every item rewrites the row of at most one key from
    that row alone, a key's row after the loop is its own items applied to its own row, in order. -/
theorem get?_foldl_update {γ : Type w} {step : Dict κ α → γ → Dict κ α} {key : γ → Option κ}
    {f : γ → Option α → α}
    (hstep : ∀ d c k, (step d c).get? k = if key c = some k then some (f c (d.get? k)) else d.get? k)
    (l : List γ) (d : Dict κ α) (k : κ) :
    (l.foldl step d).get? k
      = (l.filter fun c => key c = some k).foldl (fun row c => some (f c row)) (d.get? k) := by
  induction l generalizing d with
  | nil => rfl
  | cons c l ih =>
      rw [List.foldl_cons, ih, hstep]
      by_cases hk : key c = some k
      · simp [hk]
      · simp [hk]

/-- A dictionary is its keys in order and its lookups. -/
theorem ext_get? {d e : Dict κ α} (hk : d.keys = e.keys) (hg : ∀ k, d.get? k = e.get? k) : d = e := by
  have hentries : ∀ d : Dict κ α, d.entries = d.keys.filterMap fun k => (d.get? k).map fun v => (k, v) := by
    intro d
    unfold keys
    rw [List.filterMap_map]
    have hsome : ∀ x ∈ d.entries, some x = ((fun k => (d.get? k).map fun v => (k, v)) ∘ Prod.fst) x := by
      rintro ⟨k, v⟩ hx
      simp [get?_eq_some_iff.mpr hx]
    rw [← List.filterMap_congr hsome, List.filterMap_some]
  apply ext'
  rw [hentries d, hentries e, hk]
  refine List.filterMap_congr ?_
  intro k _
  rw [hg]

/-- Dictionaries with the same lookups hold the same entries in some order. -/
theorem entries_perm {d e : Dict κ α} (h : ∀ k, d.get? k = e.get? k) : d.entries.Perm e.entries := by
  have hnodup : ∀ d : Dict κ α, d.entries.Nodup := fun d => d.nodup.of_map
  rw [List.perm_ext_iff_of_nodup (hnodup d) (hnodup e)]
  rintro ⟨k, v⟩
  rw [← get?_eq_some_iff, ← get?_eq_some_iff, h]

section SetAll
variable {f : κ × α → α}

/-- Overwrite the given entries one at a time. -/
def setAll (f : κ × α → α) (l : List (κ × α)) (d : Dict κ α) : Dict κ α :=
  l.foldl (fun d e => d.set e.1 (f e)) d

theorem get?_setAll {l : List (κ × α)} (hnd : (l.map Prod.fst).Nodup) (d : Dict κ α) (k : κ) :
    (setAll f l d).get? k = match l.find? fun e => e.1 = k with
      | some e => some (f e)
      | none => d.get? k := by
  unfold setAll
  induction l generalizing d with
  | nil => rfl
  | cons e l ih =>
      rw [List.map_cons, List.nodup_cons] at hnd
      rw [List.foldl_cons, ih hnd.2]
      by_cases he : e.1 = k
      · have hnone : (l.find? fun e => e.1 = k) = none := by
          rw [List.find?_eq_none]
          intro x hx hxk
          have hxk' : x.1 = k := by simpa using hxk
          exact hnd.1 (he ▸ hxk' ▸ List.mem_map_of_mem hx)
        rw [hnone, List.find?_cons_of_pos (by simpa using he)]
        dsimp only
        rw [get?_set, if_pos he.symm]
      · rw [List.find?_cons_of_neg (by simpa using he)]
        cases l.find? fun e => e.1 = k with
        | some e' => rfl
        | none =>
            dsimp only
            rw [get?_set, if_neg (Ne.symm he)]

theorem keys_setAll {l : List (κ × α)} (d : Dict κ α) (hl : ∀ e ∈ l, e.1 ∈ d.keys) :
    (setAll f l d).keys = d.keys := by
  unfold setAll
  induction l generalizing d with
  | nil => rfl
  | cons e l ih =>
      have hkeys : (d.set e.1 (f e)).keys = d.keys := keys_set_of_mem (hl e List.mem_cons_self)
      rw [List.foldl_cons, ih, hkeys]
      intro x hx
      rw [hkeys]
      exact hl x (List.mem_cons_of_mem e hx)

/-- Overwriting some of a dictionary's entries is one pass over its values. -/
theorem setAll_filter (d : Dict κ α) (P : κ × α → Bool) :
    setAll f (d.entries.filter P) d = d.mapVals fun k v => if P (k, v) then f (k, v) else v := by
  have hsub : (d.entries.filter P).Sublist d.entries := List.filter_sublist
  have hnd : ((d.entries.filter P).map Prod.fst).Nodup := (hsub.map Prod.fst).nodup d.nodup
  refine ext_get? ?_ ?_
  · rw [keys_mapVals]
    refine keys_setAll d ?_
    intro e he
    exact mem_keys_of_mem (hsub.subset he)
  · intro k
    rw [get?_setAll hnd, get?_mapVals]
    cases hfind : (d.entries.filter P).find? fun e => e.1 = k with
    | some e =>
        obtain ⟨hmem, hP⟩ := List.mem_filter.mp (List.mem_of_find?_eq_some hfind)
        have hk : e.1 = k := by simpa using List.find?_some hfind
        subst hk
        rw [get?_eq_some_iff.mpr (show (e.1, e.2) ∈ d.entries from hmem)]
        simp [hP]
    | none =>
        cases hget : d.get? k with
        | none => rfl
        | some v =>
            have hmem := get?_eq_some_iff.mp hget
            have hP : P (k, v) = false := by
              by_contra hne
              have hin := List.mem_filter.mpr ⟨hmem, Bool.not_eq_false _ ▸ hne⟩
              exact absurd (List.find?_eq_none.mp hfind _ hin) (by simp)
            simp [hP]

/-- Writing what is there already, entry by entry. -/
theorem setAll_eq_self {l : List (κ × α)} {d : Dict κ α} (h : ∀ e ∈ l, d.get? e.1 = some (f e)) :
    setAll f l d = d := by
  unfold setAll
  induction l with
  | nil => rfl
  | cons e l ih =>
      rw [List.foldl_cons, set_eq_self (h e List.mem_cons_self)]
      exact ih fun x hx => h x (List.mem_cons_of_mem e hx)

end SetAll

/-- How often each item of a list occurs, in order of first occurrence. -/
def counter (l : List κ) : Dict κ ℕ := l.foldl (fun d c => d.set c ((d.get? c).getD 0 + 1)) ∅

theorem get?_counter (l : List κ) (k : κ) :
    (counter l).get? k = if k ∈ l then some (l.count k) else none := by
  have hstep : ∀ (d : Dict κ ℕ) (c k : κ), (d.set c ((d.get? c).getD 0 + 1)).get? k
      = if some c = some k then some ((d.get? k).getD 0 + 1) else d.get? k := by
    intro d c k
    rw [get?_set]
    by_cases h : k = c
    · subst h; simp
    · simp [h, Ne.symm h]
  -- a key's own items add one each
  have hcount : ∀ (m : List κ) (row : Option ℕ), m.foldl (fun row _ => some (row.getD 0 + 1)) row
      = if m = [] then row else some (row.getD 0 + m.length) := by
    intro m
    induction m with
    | nil => exact fun row => rfl
    | cons c m ih =>
        intro row
        rw [List.foldl_cons, ih]
        by_cases hm : m = []
        · simp [hm]
        · simp [hm, Nat.add_assoc, Nat.add_comm 1]
  have hfold := get?_foldl_update (f := fun _ row => row.getD 0 + 1) hstep l ∅ k
  unfold counter
  rw [hfold, hcount]
  by_cases hk : k ∈ l
  · have hne : (l.filter fun c => some c = some k) ≠ [] :=
      List.ne_nil_of_mem (List.mem_filter.mpr ⟨hk, by simp⟩)
    rw [if_neg hne, if_pos hk, List.count_eq_length_filter]
    simp [beq_eq_decide]
  · have hnil : (l.filter fun c => some c = some k) = [] := by
      rw [List.filter_eq_nil_iff]
      intro c hc hck
      have hck' : c = k := by simpa using hck
      exact hk (hck' ▸ hc)
    rw [if_pos hnil, if_neg hk]
    rfl

/-- The entries of a counter. -/
theorem mem_counter {l : List κ} {k : κ} {n : ℕ} : (k, n) ∈ (counter l).entries ↔ k ∈ l ∧ n = l.count k := by
  rw [← get?_eq_some_iff, get?_counter]
  split
  · rename_i hk
    simp [hk, eq_comm]
  · rename_i hk
    simp [hk]

/-- The dictionary of a list of pairs, later pairs winning. -/
def ofList (l : List (κ × α)) : Dict κ α := l.foldl (fun d e => d.set e.1 e.2) ∅

theorem ofList_concat (l : List (κ × α)) (e : κ × α) : ofList (l ++ [e]) = (ofList l).set e.1 e.2 := by
  unfold ofList
  rw [List.foldl_append]
  rfl

/-- Pairs with distinct keys are the entries. -/
theorem ofList_of_nodup {l : List (κ × α)} (h : (l.map Prod.fst).Nodup) : ofList l = ⟨l, h⟩ := by
  induction l using List.reverseRecOn with
  | nil => rfl
  | append_singleton l e ih =>
      rw [List.map_append] at h
      have hnew : e.1 ∉ l.map Prod.fst := by
        intro hmem
        exact (List.nodup_append.mp h).2.2 e.1 hmem e.1 (by simp) rfl
      rw [ofList_concat, ih (List.nodup_append.mp h).1]
      apply ext'
      have hset : setEntry e.1 e.2 (l ++ []) = l ++ setEntry e.1 e.2 [] := setEntry_append hnew
      rw [List.append_nil] at hset
      exact hset

/-- What is read from `ofList` is one of its pairs. -/
theorem mem_of_get?_ofList {l : List (κ × α)} {k : κ} {v : α} (h : (ofList l).get? k = some v) :
    (k, v) ∈ l := by
  have hall : ∀ k v, (ofList l).get? k = some v → (k, v) ∈ l := by
    unfold ofList
    refine List.foldlRecOn (motive := fun d : Dict κ α => ∀ k v, d.get? k = some v → (k, v) ∈ l) l _
      (fun k v h => absurd h (by simp)) ?_
    intro d hd e he k v h
    rw [get?_set] at h
    split at h
    · rename_i hk
      obtain rfl := Option.some.inj h
      exact hk ▸ he
    · exact hd k v h
  exact hall k v h

theorem mem_keys_ofList {l : List (κ × α)} {k : κ} : k ∈ (ofList l).keys ↔ k ∈ l.map Prod.fst := by
  induction l using List.reverseRecOn with
  | nil => simp [ofList]
  | append_singleton l e ih => rw [ofList_concat, mem_keys_set, ih, List.map_append]; simp [or_comm]

end Lookup

end Dict

end Lib
