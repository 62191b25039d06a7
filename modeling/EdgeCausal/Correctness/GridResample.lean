import EdgeCausal.Engine.Inputs

/-!
# `Correctness.GridResample` — the grid holds what each slot would hold on its own

The vectors of a pass come from one loop over the keys and one pointer a series. Slot by slot they are what a
specification without either says: the sample held at the slot, when it lies within a step of it. The grid ends at
the newest sample, or at the epoch when every sample is older than that.
-/

namespace EdgeCausal

open Lib

/-! ## The specification -/

section Spec
variable (cfg : GridConfig) (fromisoformat : String → Option ℚ)

/-- A wanted series of the window with at least twelve parsed samples. -/
structure IsSeries (window : RawWindow) (pod : Pod) (sig : Signal) (samples : List RawSample) : Prop where
  served : ∃ key, window.get? key = some samples ∧ keyParts key = some (pod, sig)
  wanted : sig ∈ cfg.wanted
  enough : 12 ≤ (parsed fromisoformat samples).length

/-- The timestamps of the wanted series. -/
def stamps (window : RawWindow) : Set ℚ :=
  {t | ∃ pod sig samples, IsSeries cfg fromisoformat window pod sig samples ∧
    ∃ s ∈ parsed fromisoformat samples, s.1 = t}

/-- The last sample up to half a step after the slot, or the first of all, lies within a step of the slot, and its
    value is `v`. -/
def Fills (latest : ℚ) (pts : List Stamped) (k : ℕ) (v : ℚ) : Prop :=
  ∃ s, IsHeld toLex Prod.fst pts (slotAt cfg latest k + cfg.gridStepS / 2) s ∧
    |s.1 - slotAt cfg latest k| ≤ cfg.gridStepS ∧ s.2 = v

/-- `vec` is the series on the grid. -/
structure OnGrid (latest : ℚ) (pts : List Stamped) (vec : Series) : Prop where
  length : vec.length = 180
  fresh : ∃ s ∈ pts, latest - 2 * cfg.gridStepS ≤ s.1
  filled : ∀ k < 180, ∀ v, Fills cfg latest pts k v → vec[k]? = some v
  gap : ∀ k < 180, (∀ v, ¬ Fills cfg latest pts k v) → vec[k]? = some 0
  covered : ∃ slots : Finset ℕ, 12 ≤ slots.card ∧ ∀ k ∈ slots, k < 180 ∧ ∃ v, Fills cfg latest pts k v

/-- No two keys name the same pod and signal. -/
def UniquePods (window : RawWindow) : Prop :=
  ∀ key ∈ window.keys, ∀ key' ∈ window.keys, ∀ id, keyParts key = some id → keyParts key' = some id → key = key'

end Spec

variable {cfg : GridConfig} {fromisoformat : String → Option ℚ} {latest : ℚ}

/-! ## One series -/

section Vector
variable {cur : Stamped} {later pts : List Stamped} {vec : Series} {k : ℕ} {v : ℚ}

/-- What a slot would take on its own. -/
def taken (cfg : GridConfig) (latest : ℚ) (cur : Stamped) (later : List Stamped) (k : ℕ) : Option ℚ :=
  let s := (advance Prod.fst (slotAt cfg latest k + cfg.gridStepS / 2) cur later).1
  if |s.1 - slotAt cfg latest k| ≤ cfg.gridStepS then some s.2 else none

/-- **The shared pointer takes what each slot would take on its own.** -/
theorem resample_eq (cfg : GridConfig) (latest : ℚ) (cur : Stamped) (later : List Stamped) :
    resample cfg latest cur later = (List.range gridN).map (taken cfg latest cur later) := by
  unfold resample
  rcases lt_or_ge cfg.gridStepS 0 with hneg | hstep
  · -- no sample is within a negative step of anything
    have hnone : ∀ s : Stamped, ∀ gt : ℚ, ¬ |s.1 - gt| ≤ cfg.gridStepS := by
      intro s gt
      have := abs_nonneg (s.1 - gt)
      linarith
    have hlen := length_sampleAndHold Prod.fst (fun gt => gt + cfg.gridStepS / 2) (grid cfg latest) cur later
    have hblank : ∀ {γ : Type} (l : List γ) (f : γ → Option ℚ), (∀ x ∈ l, f x = none) →
        l.map f = List.replicate l.length none := by
      intro γ l f hf
      rw [List.map_congr_left hf, List.map_const']
    rw [hblank _ _ fun gs _ => if_neg (hnone gs.2 gs.1), hlen,
      hblank _ (taken cfg latest cur later) fun k _ => if_neg (hnone _ _)]
    simp [grid]
  · have hascending :
        (grid cfg latest).Pairwise fun g g' => g + cfg.gridStepS / 2 ≤ g' + cfg.gridStepS / 2 := by
      unfold grid
      rw [List.pairwise_map]
      refine List.pairwise_lt_range.imp ?_
      intro k k' hlt
      have hle : ((gridN - 1 - k' : ℕ) : ℚ) ≤ ((gridN - 1 - k : ℕ) : ℚ) := by exact_mod_cast (by omega)
      have hmul := mul_le_mul_of_nonneg_left hle hstep
      unfold slotAt
      linarith
    rw [sampleAndHold_eq hascending, grid, List.map_map, List.map_map]
    rfl

theorem toLex_injective : Function.Injective (toLex : Stamped → ℚ ×ₗ ℚ) := fun _ _ h => h

/-- A slot takes the sample held there. -/
theorem taken_iff (hsorted : (cur :: later).Pairwise fun x y => toLex x ≤ toLex y) :
    taken cfg latest cur later k = some v ↔ Fills cfg latest (cur :: later) k v := by
  have hheld : IsHeld toLex Prod.fst (cur :: later) (slotAt cfg latest k + cfg.gridStepS / 2)
      (advance Prod.fst (slotAt cfg latest k + cfg.gridStepS / 2) cur later).1 :=
    advance_isHeld (fun {x y} h => Prod.Lex.monotone_fst x y h) hsorted
  unfold taken Fills
  dsimp only
  constructor
  · intro h
    split at h
    · rename_i hnear
      exact ⟨_, hheld, hnear, Option.some.inj h⟩
    · exact absurd h (by simp)
  · rintro ⟨s, hs, hnear, rfl⟩
    obtain rfl := toLex_injective (hs.key_unique hheld)
    rw [if_pos hnear]

/-- The last sample of a sorted series is the newest. -/
theorem newestOf_greatest (hne : pts ≠ []) (hsorted : pts.Pairwise fun x y => toLex x ≤ toLex y) :
    IsGreatest {t | ∃ s ∈ pts, s.1 = t} (newestOf pts) := by
  obtain ⟨init, s, rfl⟩ := List.eq_nil_or_concat pts |>.resolve_left hne
  have hlast : newestOf (init.concat s) = s.1 := by simp [newestOf]
  rw [hlast]
  refine ⟨⟨s, by simp, rfl⟩, ?_⟩
  rintro t ⟨x, hx, rfl⟩
  rw [List.concat_eq_append] at hx hsorted
  rcases List.mem_append.mp hx with hx | hx
  · exact Prod.Lex.monotone_fst _ _ ((List.pairwise_append.mp hsorted).2.2 x hx s (by simp))
  · rw [List.mem_singleton.mp hx]

/-- Twelve filled slots, counted or collected. -/
theorem twelve_filled_iff (f : ℕ → Option ℚ) : 12 ≤ ((List.range gridN).map f).countP Option.isSome ↔
    ∃ slots : Finset ℕ, 12 ≤ slots.card ∧ ∀ k ∈ slots, k < 180 ∧ ∃ v, f k = some v := by
  have hcount : ((List.range gridN).map f).countP Option.isSome =
      ((Finset.range gridN).filter fun k => (f k).isSome).card := by
    rw [List.countP_map, List.countP_eq_length_filter,
      ← List.toFinset_card_of_nodup (List.nodup_range.filter (Option.isSome ∘ f))]
    congr 1
    ext k
    simp
  have hmem : ∀ k, k ∈ (Finset.range gridN).filter (fun k => (f k).isSome) ↔ k < 180 ∧ ∃ v, f k = some v := by
    intro k
    rw [Finset.mem_filter, Finset.mem_range, Option.isSome_iff_exists]
    rfl
  rw [hcount]
  constructor
  · exact fun h => ⟨_, h, fun k hk => (hmem k).mp hk⟩
  · rintro ⟨slots, hcard, hslots⟩
    exact hcard.trans (Finset.card_le_card fun k hk => (hmem k).mpr (hslots k hk))

/-- A series is fresh as soon as one of its samples is. -/
theorem fresh_iff (bound : ℚ) (hne : pts ≠ []) (hsorted : pts.Pairwise fun x y => toLex x ≤ toLex y) :
    (∃ s ∈ pts, bound ≤ s.1) ↔ ¬ newestOf pts < bound := by
  have hnewest := newestOf_greatest hne hsorted
  rw [not_lt]
  constructor
  · rintro ⟨s, hs, hle⟩
    exact hle.trans (hnewest.2 ⟨s, hs, rfl⟩)
  · intro hle
    obtain ⟨s, hs, heq⟩ := hnewest.1
    exact ⟨s, hs, heq.symm ▸ hle⟩

/-- The column a slot gets. -/
theorem resampled_getElem? {k : ℕ} (hk : k < 180) :
    ((resample cfg latest cur later).map fun v => v.getD 0)[k]? = some ((taken cfg latest cur later k).getD 0) := by
  rw [resample_eq, List.map_map, List.getElem?_map, List.getElem?_range (show k < gridN from hk)]
  rfl

/-- The columns are what the slots hold, and 0 where they hold nothing. -/
theorem columns_iff (hsorted : (cur :: later).Pairwise fun x y => toLex x ≤ toLex y) :
    ((resample cfg latest cur later).map fun v => v.getD 0) = vec ↔
      vec.length = 180 ∧ (∀ k < 180, ∀ v, Fills cfg latest (cur :: later) k v → vec[k]? = some v) ∧
      ∀ k < 180, (∀ v, ¬ Fills cfg latest (cur :: later) k v) → vec[k]? = some 0 := by
  have hlen : ((resample cfg latest cur later).map fun v => v.getD 0).length = 180 := by
    rw [resample_eq]
    simp [gridN]
  constructor
  · rintro rfl
    refine ⟨hlen, ?_, ?_⟩
    · intro k hk v hfills
      rw [resampled_getElem? hk, (taken_iff hsorted).mpr hfills]
      rfl
    · intro k hk hnone
      rw [resampled_getElem? hk]
      cases htaken : taken cfg latest cur later k with
      | none => rfl
      | some v => exact absurd ((taken_iff hsorted).mp htaken) (hnone v)
  · rintro ⟨hvec, hfilled, hgap⟩
    refine List.ext_getElem? fun k => ?_
    rcases lt_or_ge k 180 with hk | hk
    · rw [resampled_getElem? hk]
      cases htaken : taken cfg latest cur later k with
      | none =>
          refine (hgap k hk fun v hfills => ?_).symm
          rw [(taken_iff hsorted).mpr hfills] at htaken
          exact absurd htaken (by simp)
      | some v => exact (hfilled k hk v ((taken_iff hsorted).mp htaken)).symm
    · rw [List.getElem?_eq_none (hlen.trans_le hk), List.getElem?_eq_none (hvec.trans_le hk)]

/-- **A series is read onto the grid as specified, or dropped.** -/
theorem toVector_iff (hsorted : pts.Pairwise fun x y => toLex x ≤ toLex y) :
    toVector cfg latest pts = some vec ↔ OnGrid cfg latest pts vec := by
  cases pts with
  | nil =>
      refine iff_of_false (by simp [toVector]) ?_
      rintro ⟨-, ⟨s, hs, -⟩, -⟩
      exact absurd hs List.not_mem_nil
  | cons cur later =>
      have hfresh := fresh_iff (latest - 2 * cfg.gridStepS) (List.cons_ne_nil cur later) hsorted
      have hcovered := twelve_filled_iff (taken cfg latest cur later)
      simp only [taken_iff hsorted] at hcovered
      unfold toVector
      dsimp only
      rw [← resample_eq] at hcovered
      constructor
      · intro h
        split at h
        · exact absurd h (by simp)
        · rename_i hstale
          split at h
          · rename_i hcount
            obtain ⟨hlen, hfilled, hgap⟩ := (columns_iff hsorted).mp (Option.some.inj h)
            exact ⟨hlen, hfresh.mpr hstale, hfilled, hgap, hcovered.mp hcount⟩
          · exact absurd h (by simp)
      · rintro ⟨hlen, hrecent, hfilled, hgap, hslots⟩
        rw [if_neg (hfresh.mp hrecent), if_pos (hcovered.mpr hslots)]
        exact congrArg some ((columns_iff hsorted).mpr ⟨hlen, hfilled, hgap⟩)

/-- The grid reads a series whatever its order. -/
theorem OnGrid.congr {pts' : List Stamped} (h : ∀ s, s ∈ pts ↔ s ∈ pts') (hgrid : OnGrid cfg latest pts vec) :
    OnGrid cfg latest pts' vec := by
  have hfills : ∀ k v, Fills cfg latest pts k v ↔ Fills cfg latest pts' k v := by
    intro k v
    unfold Fills
    simp only [IsHeld.congr h]
  obtain ⟨hlen, ⟨s, hs, hrecent⟩, hfilled, hgap, slots, hcard, hslots⟩ := hgrid
  simp only [hfills] at hfilled hgap hslots
  exact ⟨hlen, ⟨s, (h s).mp hs, hrecent⟩, hfilled, hgap, slots, hcard, hslots⟩

end Vector

/-! ## All keys -/

section Gather
variable {window : RawWindow} {es : List (String × List RawSample)} {e : String × List RawSample} {pod : Pod}
  {sig : Signal} {pts : List Stamped} {samples : List RawSample}

theorem sorted_points (l : List Stamped) : (sortOn toLex l).Pairwise fun x y => toLex x ≤ toLex y :=
  sortOn_pairwise toLex l

/-- What a key contributes. -/
theorem collected_iff : collected cfg fromisoformat e = some ⟨pod, sig, pts⟩ ↔ keyParts e.1 = some (pod, sig) ∧
    sig ∈ cfg.wanted ∧ 12 ≤ (parsed fromisoformat e.2).length ∧ pts = sortOn toLex (parsed fromisoformat e.2) := by
  have hlen : (sortOn toLex (parsed fromisoformat e.2)).length = (parsed fromisoformat e.2).length :=
    (sortOn_perm _ _).length_eq
  unfold collected
  dsimp only
  rw [hlen]
  cases keyParts e.1 with
  | none => simp
  | some id =>
      obtain ⟨pod', sig'⟩ := id
      dsimp only
      by_cases hwanted : sig' ∈ cfg.wanted
      · by_cases hnil : e.2 = []
        · rw [if_pos (Or.inr hnil), hnil]
          simp [parsed]
        · rw [if_neg (by simp [hwanted, hnil])]
          split
          · rename_i henough
            simp only [Option.some.injEq, Collected.mk.injEq, Prod.mk.injEq]
            constructor
            · rintro ⟨rfl, rfl, rfl⟩
              exact ⟨⟨rfl, rfl⟩, hwanted, henough, rfl⟩
            · rintro ⟨⟨rfl, rfl⟩, -, -, rfl⟩
              exact ⟨rfl, rfl, rfl⟩
          · rename_i hfew
            simp [hfew]
      · rw [if_pos (Or.inl hwanted)]
        refine iff_of_false (by simp) ?_
        rintro ⟨hid, hsig, -⟩
        obtain ⟨-, rfl⟩ := Prod.mk.inj (Option.some.inj hid)
        exact hwanted hsig

theorem gatherStep_of_none {g : Gathered} (h : collected cfg fromisoformat e = none) :
    gatherStep cfg fromisoformat g e = g := by
  unfold gatherStep
  rw [h]

theorem gatherStep_of_some {g : Gathered} {c : Collected} (h : collected cfg fromisoformat e = some c) :
    gatherStep cfg fromisoformat g e = ⟨Function.update g.raw c.signal ((g.raw c.signal).set c.pod c.pts),
      max g.latest (newestOf c.pts)⟩ := by
  unfold gatherStep
  rw [h]

/-- A key writes under its own pod and signal only. -/
theorem update_get?_other (raw : Signal → Dict Pod (List Stamped)) {sig' : Signal} {pod' : Pod}
    {pts' : List Stamped} (h : ¬ (sig = sig' ∧ pod = pod')) :
    (Function.update raw sig' ((raw sig').set pod' pts') sig).get? pod = (raw sig).get? pod := by
  by_cases hsig : sig = sig'
  · subst hsig
    rw [Function.update_self, Dict.get?_set, if_neg fun hpod => h ⟨rfl, hpod⟩]
  · rw [Function.update_of_ne hsig]

/-- **What the loop has gathered for a pod** is what its one key contributed. -/
theorem gathered_get?
    (hunique : ∀ e ∈ es, ∀ e' ∈ es, ∀ id, keyParts e.1 = some id → keyParts e'.1 = some id → e = e') :
    ((es.foldl (gatherStep cfg fromisoformat) .empty).raw sig).get? pod = some pts ↔
      ∃ e ∈ es, collected cfg fromisoformat e = some ⟨pod, sig, pts⟩ := by
  induction es using List.reverseRecOn with
  | nil => simp [Gathered.empty]
  | append_singleton es e ih =>
      have ih := ih fun a ha b hb => hunique a (List.mem_append_left _ ha) b (List.mem_append_left _ hb)
      rw [List.foldl_append, List.foldl_cons, List.foldl_nil]
      cases hc : collected cfg fromisoformat e with
      | none =>
          rw [gatherStep_of_none hc, ih]
          simp [hc]
      | some c =>
          obtain ⟨pod', sig', pts'⟩ := c
          rw [gatherStep_of_some hc]
          dsimp only
          by_cases hsame : sig = sig' ∧ pod = pod'
          · obtain ⟨rfl, rfl⟩ := hsame
            rw [Function.update_self, Dict.get?_set, if_pos rfl]
            constructor
            · intro h
              exact ⟨e, by simp, by rw [hc, Option.some.inj h]⟩
            · rintro ⟨e', he', hc'⟩
              -- the two keys have the same names, so they are the same
              obtain rfl := hunique e' he' e (by simp) _ (collected_iff.mp hc').1 (collected_iff.mp hc).1
              rw [hc] at hc'
              exact congrArg (fun c => c.map Collected.pts) hc'
          · rw [update_get?_other _ hsame, ih]
            constructor
            · rintro ⟨e', he', hc'⟩
              exact ⟨e', List.mem_append_left _ he', hc'⟩
            · rintro ⟨e', he', hc'⟩
              rcases List.mem_append.mp he' with he' | he'
              · exact ⟨e', he', hc'⟩
              · rw [List.mem_singleton.mp he', hc, Option.some.injEq, Collected.mk.injEq] at hc'
                exact absurd ⟨hc'.2.1.symm, hc'.1.symm⟩ hsame

/-- The running maximum is the newest timestamp so far, or the epoch. -/
theorem gathered_latest : IsGreatest (insert 0 {t | ∃ e ∈ es, ∃ c, collected cfg fromisoformat e = some c ∧
    ∃ s ∈ c.pts, s.1 = t}) (es.foldl (gatherStep cfg fromisoformat) .empty).latest := by
  induction es using List.reverseRecOn with
  | nil =>
      refine ⟨Set.mem_insert _ _, ?_⟩
      rintro t (rfl | ⟨e, he, -⟩)
      · exact le_rfl
      · exact absurd he List.not_mem_nil
  | append_singleton es e ih =>
      rw [List.foldl_append, List.foldl_cons, List.foldl_nil]
      cases hc : collected cfg fromisoformat e with
      | none =>
          rw [gatherStep_of_none hc]
          convert ih using 2
          ext t
          simp [or_and_right, exists_or, hc]
      | some c =>
          have hpts : c.pts = sortOn toLex (parsed fromisoformat e.2) := (collected_iff.mp hc).2.2.2
          have hne : c.pts ≠ [] := by
            have henough := (collected_iff.mp hc).2.2.1
            rw [← (sortOn_perm toLex _).length_eq, ← hpts] at henough
            exact List.ne_nil_of_length_pos (by omega)
          have hnewest := newestOf_greatest hne (hpts ▸ sorted_points _)
          have hmore : insert 0
              {t | ∃ a ∈ es ++ [e], ∃ c, collected cfg fromisoformat a = some c ∧ ∃ s ∈ c.pts, s.1 = t} =
              insert 0 {t | ∃ a ∈ es, ∃ c, collected cfg fromisoformat a = some c ∧ ∃ s ∈ c.pts, s.1 = t} ∪
                {t | ∃ s ∈ c.pts, s.1 = t} := by
            ext t
            simp [or_and_right, exists_or, hc, or_assoc]
          rw [gatherStep_of_some hc, hmore]
          exact ih.union hnewest

end Gather

/-! ## The result -/

section Result
variable {window : RawWindow} {pod : Pod} {sig : Signal} {samples : List RawSample} {vec : Series}

/-- The grid ends at the newest timestamp, or at the epoch. -/
theorem latest_greatest (cfg : GridConfig) (fromisoformat : String → Option ℚ) (window : RawWindow) :
    IsGreatest (insert 0 (stamps cfg fromisoformat window)) (gather cfg fromisoformat window).latest := by
  have hstamps : stamps cfg fromisoformat window = {t | ∃ e ∈ window.entries, ∃ c,
      collected cfg fromisoformat e = some c ∧ ∃ s ∈ c.pts, s.1 = t} := by
    ext t
    constructor
    · rintro ⟨pod, sig, samples, ⟨⟨key, hget, hid⟩, hwanted, henough⟩, s, hs, rfl⟩
      exact ⟨(key, samples), Dict.get?_eq_some_iff.mp hget, ⟨pod, sig, _⟩,
        collected_iff.mpr ⟨hid, hwanted, henough, rfl⟩, s, mem_sortOn.mpr hs, rfl⟩
    · rintro ⟨⟨key, samples⟩, he, ⟨pod, sig, pts⟩, hc, s, hs, rfl⟩
      obtain ⟨hid, hwanted, henough, rfl⟩ := collected_iff.mp hc
      exact ⟨pod, sig, samples, ⟨⟨key, Dict.get?_eq_some_iff.mpr he, hid⟩, hwanted, henough⟩, s,
        mem_sortOn.mp hs, rfl⟩
  rw [hstamps]
  exact gathered_latest

/-- The vector of a pod is its series on the grid. -/
theorem buildInputs_get? (hunique : UniquePods window) (events : List RawEvent) :
    ((buildInputs cfg fromisoformat window events).1 sig).get? pod = some vec ↔
      ∃ samples, IsSeries cfg fromisoformat window pod sig samples ∧
        OnGrid cfg (gather cfg fromisoformat window).latest (parsed fromisoformat samples) vec := by
  have hkeys : ∀ e ∈ window.entries, ∀ e' ∈ window.entries, ∀ id, keyParts e.1 = some id →
      keyParts e'.1 = some id → e = e' := by
    rintro ⟨key, samples⟩ he ⟨key', samples'⟩ he' id hid hid'
    obtain rfl := hunique key (Dict.mem_keys_of_mem he) key' (Dict.mem_keys_of_mem he') id hid hid'
    rw [Dict.value_unique he he']
  show (toVectors cfg _ ((gather cfg fromisoformat window).raw sig)).get? pod = some vec ↔ _
  unfold toVectors
  rw [Dict.get?_filterMap, Option.bind_eq_some_iff]
  constructor
  · rintro ⟨pts, hpts, hvec⟩
    obtain ⟨⟨key, samples⟩, he, hc⟩ := (gathered_get? hkeys).mp hpts
    obtain ⟨hid, hwanted, henough, rfl⟩ := collected_iff.mp hc
    exact ⟨samples, ⟨⟨key, Dict.get?_eq_some_iff.mpr he, hid⟩, hwanted, henough⟩,
      ((toVector_iff (sorted_points _)).mp hvec).congr fun s => mem_sortOn⟩
  · rintro ⟨samples, ⟨⟨key, hget, hid⟩, hwanted, henough⟩, hgrid⟩
    have hc := collected_iff (e := (key, samples)).mpr ⟨hid, hwanted, henough, rfl⟩
    exact ⟨_, (gathered_get? hkeys).mpr ⟨(key, samples), Dict.get?_eq_some_iff.mp hget, hc⟩,
      (toVector_iff (sorted_points _)).mpr (hgrid.congr fun s => mem_sortOn.symm)⟩

/-- The same keys in the same order, each with its samples in any order. -/
def SamplesReordered (window window' : RawWindow) : Prop :=
  List.Forall₂ (fun e e' => e.1 = e'.1 ∧ e.2.Perm e'.2) window.entries window'.entries

/-- No order of the samples changes what a key contributes. -/
theorem collected_perm {key : String} {samples samples' : List RawSample} (h : samples.Perm samples') :
    collected cfg fromisoformat (key, samples) = collected cfg fromisoformat (key, samples') := by
  have hparsed : (parsed fromisoformat samples).Perm (parsed fromisoformat samples') := h.filterMap _
  have hsorted :
      sortOn toLex (parsed fromisoformat samples) = sortOn toLex (parsed fromisoformat samples') := by
    refine List.Perm.eq_of_pairwise ?_ (sorted_points _) (sorted_points _)
      ((sortOn_perm _ _).trans (hparsed.trans (sortOn_perm _ _).symm))
    intro x y _ _ hxy hyx
    exact toLex_injective (le_antisymm hxy hyx)
  have hnil : samples = [] ↔ samples' = [] := by
    rw [← List.length_eq_zero_iff, h.length_eq, List.length_eq_zero_iff]
  unfold collected
  simp only [hsorted, hnil]

theorem gather_reordered {window' : RawWindow} (h : SamplesReordered window window') :
    gather cfg fromisoformat window = gather cfg fromisoformat window' := by
  unfold SamplesReordered at h
  unfold gather
  generalize window.entries = es, window'.entries = es', Gathered.empty = g at h
  induction h generalizing g with
  | nil => rfl
  | @cons e e' _ _ hentry _ ih =>
      obtain ⟨hkey, hperm⟩ := hentry
      have hstep : gatherStep cfg fromisoformat g e = gatherStep cfg fromisoformat g e' := by
        unfold gatherStep
        rw [show e = (e'.1, e.2) by rw [← hkey], collected_perm hperm]
      rw [List.foldl_cons, List.foldl_cons, hstep]
      exact ih _

/-- **Grid resampling is its specification**: the grid ends at the newest timestamp of the wanted series (or at the
    epoch), a wanted signal has exactly the pods whose series is on the grid, each with that vector, no column
    holds a value sampled more than a step away, and no order of samples matters. -/
theorem buildInputs_spec (cfg : GridConfig) (fromisoformat : String → Option ℚ) (window : RawWindow)
    (events : List RawEvent) (hunique : UniquePods window) :
    ∃ latest, IsGreatest (insert 0 (stamps cfg fromisoformat window)) latest ∧
      (∀ sig pod vec, ((buildInputs cfg fromisoformat window events).1 sig).get? pod = some vec ↔
        ∃ samples, IsSeries cfg fromisoformat window pod sig samples ∧
          OnGrid cfg latest (parsed fromisoformat samples) vec) ∧
      (∀ sig pod vec k v, ((buildInputs cfg fromisoformat window events).1 sig).get? pod = some vec →
        vec[k]? = some v → v = 0 ∨ ∃ samples, IsSeries cfg fromisoformat window pod sig samples ∧
          ∃ t, (t, v) ∈ parsed fromisoformat samples ∧ |t - slotAt cfg latest k| ≤ cfg.gridStepS) ∧
      ∀ window', SamplesReordered window window' →
        (buildInputs cfg fromisoformat window events).1 = (buildInputs cfg fromisoformat window' events).1 := by
  refine ⟨_, latest_greatest cfg fromisoformat window, fun sig pod vec => buildInputs_get? hunique events, ?_, ?_⟩
  · intro sig pod vec k v hvec hk
    obtain ⟨samples, hseries, hgrid⟩ := (buildInputs_get? hunique events).mp hvec
    have hlt : k < 180 := by
      have := (List.getElem?_eq_some_iff.mp hk).1
      have hlen := hgrid.length
      omega
    by_cases hfills : ∃ v', Fills cfg (gather cfg fromisoformat window).latest (parsed fromisoformat samples) k v'
    · obtain ⟨v', hv'⟩ := hfills
      obtain rfl := Option.some.inj ((hgrid.filled k hlt v' hv').symm.trans hk)
      obtain ⟨⟨t, v⟩, hheld, hnear, rfl⟩ := hv'
      exact Or.inr ⟨samples, hseries, t, hheld.mem, hnear⟩
    · exact Or.inl (Option.some.inj (hk.symm.trans (hgrid.gap k hlt (not_exists.mp hfills))))
  · intro window' hreordered
    show (fun sig => toVectors cfg _ _) = fun sig => toVectors cfg _ _
    rw [gather_reordered hreordered]

end Result

/-! ## A window before the epoch -/

/-- Days since 1970-01-01 of a civil date. -/
def daysFromCivil (y m d : ℤ) : ℤ :=
  let y := if m ≤ 2 then y - 1 else y
  let yearOfEra := y % 400
  let dayOfYear := (153 * (if 2 < m then m - 3 else m + 9) + 2) / 5 + d - 1
  y / 400 * 146097 + (yearOfEra * 365 + yearOfEra / 4 - yearOfEra / 100 + dayOfYear) - 719468

/-- Timestamps of the form `yyyy-mm-ddThh:mm:ss+00:00`. -/
def isoSeconds (ts : String) : Option ℚ :=
  let field lo n : ℤ := ((ts.toList.drop lo).take n).foldl (fun v c => 10 * v + (c.toNat - 48 : ℕ)) 0
  if ts.length = 25 then
    some (daysFromCivil (field 0 4) (field 5 2) (field 8 2) * 86400 +
      field 11 2 * 3600 + field 14 2 * 60 + field 17 2 : ℤ)
  else none

def gridDefaults : GridConfig where
  signals := ["psi_io", "psi_cpu", "psi_mem"]
  forecastSignal := "mem"
  forecastLimit := "mem_limit"
  gridStepS := 5

/-- Twelve samples, five seconds apart, of one minute. -/
def minuteOf (date : String) : List RawSample :=
  ["00", "05", "10", "15", "20", "25", "30", "35", "40", "45", "50", "55"].map fun sec =>
    ⟨some (date ++ ":" ++ sec ++ "Z"), 1 / 2⟩

def windowOf (date : String) : RawWindow := .ofList [("plant/timescaledb-0/psi_io", minuteOf date)]

theorem windowOf_unique (date : String) : UniquePods (windowOf date) := by
  intro key hkey key' hkey' _ _ _
  obtain rfl : key = "plant/timescaledb-0/psi_io" := List.mem_singleton.mp hkey
  exact (List.mem_singleton.mp hkey').symm

/-- A minute of 2026 is read onto the last twelve slots. -/
theorem buildInputs_spec_minute : ∃ samples vec,
    IsSeries gridDefaults isoSeconds (windowOf "2026-07-05T09:30") "timescaledb-0" "psi_io" samples ∧
    ((buildInputs gridDefaults isoSeconds (windowOf "2026-07-05T09:30") []).1 "psi_io").get? "timescaledb-0" =
      some vec := by
  obtain ⟨latest, -, hspec, -⟩ :=
    buildInputs_spec gridDefaults isoSeconds (windowOf "2026-07-05T09:30") [] (windowOf_unique _)
  have hvec : ((buildInputs gridDefaults isoSeconds (windowOf "2026-07-05T09:30") []).1 "psi_io").get?
      "timescaledb-0" = some (List.replicate 167 0 ++ List.replicate 13 (1 / 2)) := by decide +kernel
  obtain ⟨samples, hseries, -⟩ := (hspec _ _ _).mp hvec
  exact ⟨samples, _, hseries, hvec⟩

/-- A window whose samples are all older than the epoch: with the grid ending at the newest of them the pod has a
    vector, and the pass has none, since its grid ends at the epoch. -/
theorem preEpoch_dropped :
    ¬ ∀ latest, IsGreatest (stamps gridDefaults isoSeconds (windowOf "1969-07-20T20:17")) latest →
      ∀ sig pod vec,
        ((buildInputs gridDefaults isoSeconds (windowOf "1969-07-20T20:17") []).1 sig).get? pod = some vec ↔
        ∃ samples, IsSeries gridDefaults isoSeconds (windowOf "1969-07-20T20:17") pod sig samples ∧
          OnGrid gridDefaults latest (parsed isoSeconds samples) vec := by
  intro h
  have hserved : (windowOf "1969-07-20T20:17").get? "plant/timescaledb-0/psi_io" =
      some (minuteOf "1969-07-20T20:17") :=
    by decide +kernel
  have hseries : IsSeries gridDefaults isoSeconds (windowOf "1969-07-20T20:17") "timescaledb-0" "psi_io"
      (minuteOf "1969-07-20T20:17") :=
    ⟨⟨_, hserved, by decide +kernel⟩, by decide +kernel, by decide +kernel⟩
  have hnewest : IsGreatest (stamps gridDefaults isoSeconds (windowOf "1969-07-20T20:17")) (-14182925) := by
    refine ⟨⟨_, _, _, hseries, (-14182925, 1 / 2), by decide +kernel, rfl⟩, ?_⟩
    rintro t ⟨pod, sig, samples, ⟨⟨key, hget, -⟩, -, -⟩, s, hs, rfl⟩
    have hentry : (key, samples) = ("plant/timescaledb-0/psi_io", minuteOf "1969-07-20T20:17") :=
      List.mem_singleton.mp (Dict.get?_eq_some_iff.mp hget)
    have hall : ∀ s ∈ parsed isoSeconds (minuteOf "1969-07-20T20:17"), s.1 ≤ -14182925 := by decide +kernel
    rw [(Prod.mk.inj hentry).2] at hs
    exact hall s hs
  have hvec : toVector gridDefaults (-14182925)
      (sortOn toLex (parsed isoSeconds (minuteOf "1969-07-20T20:17"))) =
      some (List.replicate 167 0 ++ List.replicate 13 (1 / 2)) := by decide +kernel
  have hgrid := ((toVector_iff (sorted_points _)).mp hvec).congr fun s => mem_sortOn
  have hnone : ((buildInputs gridDefaults isoSeconds (windowOf "1969-07-20T20:17") []).1 "psi_io").get?
      "timescaledb-0" = none := by decide +kernel
  have hclaim := (h _ hnewest "psi_io" "timescaledb-0" _).mpr ⟨_, hseries, hgrid⟩
  rw [hnone] at hclaim
  exact Option.some_ne_none _ hclaim.symm

end EdgeCausal
