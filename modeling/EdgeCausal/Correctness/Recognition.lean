import EdgeCausal.Correctness.CaseLibrary
import EdgeCausal.Engine.CaseId
import EdgeCausal.Engine.Numeric

/-!
# `Correctness.Recognition` — a promoted shape is recognised for good

A fingerprint is compared with the stored prototypes by its sets only (`CaseKey.shape`), and stored under the
hash of its text. While no two promoted fingerprints share an id, every insert goes through, so whatever was
promoted once stays covered by a stored prototype (`Lib.Covered`) and every later pass of the same shape is
folded. A collision breaks exactly this: the second fingerprint is never stored.
-/

namespace EdgeCausal

open Lib

/-! ## What similarity looks at -/

/-- The signal, the witness kind, the stressor, the victim set and the set of motif edges. -/
structure CaseShape where
  signal : Signal
  witnessKind : Option Evidence
  stressors : Finset Workload
  victims : Finset Workload
  motif : Finset (Workload × Workload)
deriving DecidableEq

def CaseKey.shape (fp : CaseKey) : CaseShape :=
  ⟨fp.signal, fp.witnessKind, fp.stressors.toFinset, fp.victims.toFinset, fp.motif.toFinset⟩

theorem jaccard_self {α : Type} [DecidableEq α] (a : Finset α) : jaccard a a = 1 := by
  unfold jaccard
  by_cases h : a = ∅
  · rw [if_pos ⟨h, h⟩]
  · rw [if_neg (fun h' => h h'.1), Finset.inter_self, Finset.union_self]
    have hcard : ((a.card : ℕ) : ℚ) ≠ 0 := by
      rw [Nat.cast_ne_zero, ne_eq, Finset.card_eq_zero]
      exact h
    exact div_self hcard

variable {F G : CaseKey}

theorem caseSim_congr (h : F.shape = G.shape) (K : CaseKey) : caseSim F K = caseSim G K := by
  obtain ⟨hsig, hkind, hstress, hvict, hmotif⟩ := CaseShape.mk.inj h
  unfold caseSim
  rw [hsig, hkind, hstress, hvict, hmotif]

theorem caseSim_self (F : CaseKey) : caseSim F F = 1 := by
  unfold caseSim
  rw [if_neg (by simp), jaccard_self, jaccard_self, jaccard_self]
  norm_num

/-- Two fingerprints of one shape are as similar as can be. -/
theorem caseSim_of_shape (h : F.shape = G.shape) : caseSim F G = 1 :=
  (caseSim_congr h G).trans (caseSim_self G)

variable {cfg : MemoryConfig} {cases : Dict CaseId CaseRow} {fp : CaseKey} {sha1 : CaseKey → CaseId}

/-! ## The nearest prototype -/

/-- The prototypes by id, in row order. -/
def prototypes (cases : Dict CaseId CaseRow) : Dict CaseId CaseKey := cases.mapVals fun _ row => row.key

theorem prototypes_get? (id : CaseId) : (prototypes cases).get? id = (cases.get? id).map CaseRow.key :=
  Dict.get?_mapVals cases (fun _ row => row.key) id

theorem nearestCase_congr (h : F.shape = G.shape) : nearestCase cases F = nearestCase cases G := by
  have hnearer : nearer F = nearer G := by
    funext best c
    unfold nearer
    rw [caseSim_congr h]
  unfold nearestCase
  rw [hnearer]

/-- The similarity returned is the nearest case's. -/
theorem nearestCase_sim {c : CaseId × CaseRow} (h : (nearestCase cases fp).1 = some c) :
    (nearestCase cases fp).2 = caseSim fp c.2.key := by
  have hinv : ∀ c, (nearestCase cases fp).1 = some c → (nearestCase cases fp).2 = caseSim fp c.2.key := by
    refine List.foldlRecOn (motive := fun best => ∀ c, best.1 = some c → best.2 = caseSim fp c.2.key)
      cases.entries (nearer fp) ?_ ?_
    · intro c hc
      exact absurd hc (by simp)
    · intro best hbest new _ c hc
      unfold nearer at hc ⊢
      split
      · rename_i hlt
        rw [if_pos hlt] at hc
        obtain rfl := Option.some.inj hc
        rfl
      · rename_i hle
        rw [if_neg hle] at hc
        exact hbest c hc
  exact hinv c h

/-- The nearest-case loop on the prototypes alone. -/
def nearerPrototype (fp : CaseKey) (best : Option CaseId × ℚ) (p : CaseId × CaseKey) : Option CaseId × ℚ :=
  if best.2 < caseSim fp p.2 then (some p.1, caseSim fp p.2) else best

/-- Keep of the running nearest case its id only. -/
def forgetRow (best : Option (CaseId × CaseRow) × ℚ) : Option CaseId × ℚ := (best.1.map Prod.fst, best.2)

theorem nearestCase_eq_prototypes (cases : Dict CaseId CaseRow) (fp : CaseKey) :
    (prototypes cases).entries.foldl (nearerPrototype fp) (none, 0) = forgetRow (nearestCase cases fp) := by
  have hone : ∀ best (c : CaseId × CaseRow),
      nearerPrototype fp (forgetRow best) (c.1, c.2.key) = forgetRow (nearer fp best c) := by
    intro best c
    unfold nearerPrototype nearer forgetRow
    dsimp only
    split <;> rfl
  show (cases.entries.map fun e => (e.1, e.2.key)).foldl (nearerPrototype fp) (forgetRow (none, 0)) = _
  rw [List.foldl_map]
  exact List.foldl_hom forgetRow hone

/-- Which case is nearest depends on the prototypes only. -/
theorem nearestCase_prototypes {cases' : Dict CaseId CaseRow} (h : prototypes cases' = prototypes cases) :
    (nearestCase cases' fp).1.map Prod.fst = (nearestCase cases fp).1.map Prod.fst := by
  have hloop := nearestCase_eq_prototypes cases' fp
  rw [h, nearestCase_eq_prototypes] at hloop
  exact (Prod.mk.inj hloop).1.symm

/-! ## Routing and storing -/

/-- Where a fingerprint goes. -/
def tagFor (cfg : MemoryConfig) (sha1 : CaseKey → CaseId) (cases : Dict CaseId CaseRow) (fp : CaseKey) :
    CaseTag :=
  routeCase cfg (sha1 fp) (nearestCase cases fp)

/-- **The two fates of a fingerprint**: folded into the nearest stored case, or stored as a case of its own
    because every stored one is too far. -/
theorem tagFor_cases (hpos : 0 < cfg.tauMerge) (sha1 : CaseKey → CaseId) (cases : Dict CaseId CaseRow)
    (fp : CaseKey) :
    ((tagFor cfg sha1 cases fp).register = .recurrence ∧
      (nearestCase cases fp).1.map Prod.fst = some (tagFor cfg sha1 cases fp).caseId ∧
      ∃ row, cases.get? (tagFor cfg sha1 cases fp).caseId = some row ∧ cfg.tauMerge ≤ caseSim fp row.key) ∨
    ((tagFor cfg sha1 cases fp).register ≠ .recurrence ∧ (tagFor cfg sha1 cases fp).caseId = sha1 fp ∧
      ∀ id row, cases.get? id = some row → caseSim fp row.key < cfg.tauMerge) := by
  obtain ⟨hstored, hge, hnone⟩ := nearestCase_spec cases fp
  have hsim := @nearestCase_sim cases fp
  -- below the merge threshold nothing stored reaches it
  have hfar : (nearestCase cases fp).2 < cfg.tauMerge →
      ∀ id row, cases.get? id = some row → caseSim fp row.key < cfg.tauMerge := by
    intro hlt id row hrow
    exact (hge (id, row) (Dict.get?_eq_some_iff.mp hrow)).trans_lt hlt
  unfold tagFor
  rcases hnear : nearestCase cases fp with ⟨_ | ⟨best, row⟩, sim⟩
  · rw [hnear] at hfar hnone
    refine Or.inr ⟨by simp [routeCase], rfl, hfar ?_⟩
    rw [hnone rfl]
    exact hpos
  · rw [hnear] at hfar hstored hsim
    have hrow : cases.get? best = some row := Dict.get?_eq_some_iff.mpr (hstored _ rfl)
    unfold routeCase
    dsimp only
    split
    · rename_i hmerge
      exact Or.inl ⟨rfl, rfl, row, hrow, (hsim rfl) ▸ hmerge⟩
    · rename_i hmerge
      refine Or.inr ⟨?_, ?_, hfar (not_le.mp hmerge)⟩
      all_goals
        split <;> simp

section Store
variable {ts : ℚ} {lead : Option ℚ} {tag : CaseTag} {row : CaseRow}

theorem storeCase_recurrence (htag : tag.register = .recurrence) (hrow : cases.get? tag.caseId = some row) :
    storeCase ts lead fp tag cases = cases.set tag.caseId (foldCase ts lead row) := by
  unfold storeCase
  rw [htag]
  dsimp only
  rw [hrow]

theorem storeCase_insert (htag : tag.register ≠ .recurrence) (hnew : cases.get? tag.caseId = none) :
    storeCase ts lead fp tag cases = cases.set tag.caseId ⟨fp, 1, ts, ts, lead, some tag.family⟩ := by
  unfold storeCase
  split
  · rename_i hrec
    exact absurd hrec htag
  · rw [hnew]

/-- A fold keeps the prototypes. -/
theorem prototypes_fold {id : CaseId} (hrow : cases.get? id = some row) :
    prototypes (cases.set id (foldCase ts lead row)) = prototypes cases := by
  unfold prototypes
  rw [Dict.mapVals_set]
  refine Dict.set_eq_self ?_
  rw [Dict.get?_mapVals, hrow]
  rfl

/-- What a pass that is recognised does to the library: it inserts no case and counts one. -/
structure Recognised (before after : Dict CaseId CaseRow) (tag : CaseTag) : Prop where
  register : tag.register = .recurrence
  keys : after.keys = before.keys
  counted : ∃ old new, before.get? tag.caseId = some old ∧ after.get? tag.caseId = some new ∧
    new.occurrences = old.occurrences + 1
  others : ∀ id, id ≠ tag.caseId → after.get? id = before.get? id

theorem recognised_of_fold (htag : tag.register = .recurrence) (hrow : cases.get? tag.caseId = some row) :
    Recognised cases (storeCase ts lead fp tag cases) tag := by
  rw [storeCase_recurrence htag hrow]
  refine ⟨htag, ?_, ?_, ?_⟩
  · exact Dict.keys_set_of_mem (Dict.mem_keys_iff_get?.mpr ⟨row, hrow⟩)
  · exact ⟨row, foldCase ts lead row, hrow, by rw [Dict.get?_set, if_pos rfl], rfl⟩
  · intro id hid
    rw [Dict.get?_set, if_neg hid]

end Store

/-! ## One call -/

/-- How a call was recognised. -/
def observeTag (cfg : MemoryConfig) (sha1 : CaseKey → CaseId) (m : Memory) (c : ObserveCall) : Option CaseTag :=
  (observe cfg sha1 m c.graph c.vectors c.witness c.ts c.now).2.case

theorem observeTag_eq (m : Memory) (c : ObserveCall) :
    observeTag cfg sha1 m c = (fingerprint cfg c.graph).map (tagFor cfg sha1 m.cases) := by
  unfold observeTag observe remember promoteCase tagFor
  dsimp only
  cases fingerprint cfg c.graph with
  | none => rfl
  | some fp => rfl

theorem observeStep_cases_some {m : Memory} {c : ObserveCall} (h : fingerprint cfg c.graph = some fp) :
    (observeStep cfg sha1 m c).cases
      = storeCase c.ts (leadTime c.graph) fp (tagFor cfg sha1 m.cases fp) m.cases := by
  rw [observeStep_cases, h]
  rfl

theorem observeStep_cases_none {m : Memory} {c : ObserveCall} (h : fingerprint cfg c.graph = none) :
    (observeStep cfg sha1 m c).cases = m.cases := by
  rw [observeStep_cases, h]

/-- Some stored prototype is near enough to absorb the fingerprint. -/
abbrev Known (cfg : MemoryConfig) (cases : Dict CaseId CaseRow) (fp : CaseKey) : Prop :=
  Covered caseSim cfg.tauMerge (caseLibrary cases) fp

theorem known_iff : Known cfg cases fp ↔
    ∃ id row, cases.get? id = some row ∧ cfg.tauMerge ≤ caseSim fp row.key := by
  constructor
  · rintro ⟨id, member, hmem, hsim⟩
    obtain ⟨row, hrow, rfl⟩ := caseLibrary_eq_some.mp hmem
    exact ⟨id, row, hrow, hsim⟩
  · rintro ⟨id, row, hrow, hsim⟩
    exact ⟨id, _, caseLibrary_eq_some.mpr ⟨row, hrow, rfl⟩, hsim⟩

theorem Known.congr (hshape : F.shape = G.shape) (h : Known cfg cases F) : Known cfg cases G := by
  obtain ⟨id, row, hrow, hsim⟩ := known_iff.mp h
  exact known_iff.mpr ⟨id, row, hrow, caseSim_congr hshape row.key ▸ hsim⟩

/-- A known fingerprint is recognised. -/
theorem Known.recognised (hpos : 0 < cfg.tauMerge) (h : Known cfg cases fp) (ts : ℚ) (lead : Option ℚ) :
    Recognised cases (storeCase ts lead fp (tagFor cfg sha1 cases fp) cases) (tagFor cfg sha1 cases fp) := by
  rcases tagFor_cases hpos sha1 cases fp with ⟨hrec, -, row, hrow, -⟩ | ⟨-, -, hfar⟩
  · exact recognised_of_fold hrec hrow
  · obtain ⟨id, row, hrow, hsim⟩ := known_iff.mp h
    exact absurd hsim (not_le.mpr (hfar id row hrow))

/-! ## What the library has learned -/

/-- No two of the fingerprints share an id. -/
def CollisionFree (sha1 : CaseKey → CaseId) (keys : List CaseKey) : Prop :=
  ∀ F ∈ keys, ∀ G ∈ keys, sha1 F = sha1 G → F = G

/-- The library after the promotions of `past`: every stored case is one of them under its own id, and each
    of them is known. -/
structure Learned (cfg : MemoryConfig) (sha1 : CaseKey → CaseId) (past : List CaseKey)
    (cases : Dict CaseId CaseRow) : Prop where
  named : ∀ id row, cases.get? id = some row → row.key ∈ past ∧ sha1 row.key = id
  known : ∀ F ∈ past, Known cfg cases F

section Learned
variable {past : List CaseKey} {ts : ℚ} {lead : Option ℚ}

/-- A fingerprint too far from everything stored finds its id free. -/
theorem Learned.fresh (h : Learned cfg sha1 past cases) (h1 : cfg.tauMerge ≤ 1)
    (hfree : CollisionFree sha1 (past ++ [fp]))
    (hfar : ∀ id row, cases.get? id = some row → caseSim fp row.key < cfg.tauMerge) :
    cases.get? (sha1 fp) = none := by
  cases hid : cases.get? (sha1 fp) with
  | none => rfl
  | some row =>
      -- the row under the id is the fingerprint's own, so it is as near as can be
      obtain ⟨hmem, hsha⟩ := h.named _ _ hid
      have hkey : row.key = fp :=
        hfree row.key (List.mem_append_left _ hmem) fp
          (List.mem_append_right _ (List.mem_singleton_self fp)) hsha
      have hsim := hfar _ _ hid
      rw [hkey, caseSim_self] at hsim
      exact absurd h1 (not_le.mpr hsim)

/-- What a promotion that is not recognised does: its id was free, and it is stored. -/
theorem Learned.stored (h : Learned cfg sha1 past cases) (hpos : 0 < cfg.tauMerge) (h1 : cfg.tauMerge ≤ 1)
    (hfree : CollisionFree sha1 (past ++ [fp])) (htag : (tagFor cfg sha1 cases fp).register ≠ .recurrence)
    (ts : ℚ) (lead : Option ℚ) :
    (tagFor cfg sha1 cases fp).caseId = sha1 fp ∧ cases.get? (sha1 fp) = none ∧
      (∀ id row, cases.get? id = some row → caseSim fp row.key < cfg.tauMerge) ∧
      storeCase ts lead fp (tagFor cfg sha1 cases fp) cases
        = cases.set (sha1 fp) ⟨fp, 1, ts, ts, lead, some (tagFor cfg sha1 cases fp).family⟩ := by
  rcases tagFor_cases hpos sha1 cases fp with ⟨hrec, -⟩ | ⟨-, hid, hfar⟩
  · exact absurd hrec htag
  · have hnew := h.fresh h1 hfree hfar
    refine ⟨hid, hnew, hfar, ?_⟩
    rw [storeCase_insert htag (hid ▸ hnew), hid]

/-- **Step.** One more promotion. -/
theorem Learned.step (h : Learned cfg sha1 past cases) (h0 : 0 < cfg.tauFamily) (hpos : 0 < cfg.tauMerge)
    (h1 : cfg.tauMerge ≤ 1) (hfree : CollisionFree sha1 (past ++ [fp])) :
    Learned cfg sha1 (past ++ [fp]) (storeCase ts lead fp (tagFor cfg sha1 cases fp) cases) := by
  have hstep : LeaderStep caseSim cfg.tauFamily cfg.tauMerge (caseLibrary cases)
      (caseLibrary (storeCase ts lead fp (tagFor cfg sha1 cases fp) cases)) :=
        storeCase_refines h0 (sha1 fp) ts lead
  rcases tagFor_cases hpos sha1 cases fp with ⟨htag, -, row, hrow, hsim⟩ | ⟨htag, -⟩
  · have hknown : Known cfg cases fp := known_iff.mpr ⟨_, row, hrow, hsim⟩
    refine ⟨?_, ?_⟩
    · intro id new hnew
      -- the prototypes are the same as before
      have hsame : (prototypes cases).get? id = some new.key := by
        rw [← prototypes_fold hrow, ← storeCase_recurrence htag hrow, prototypes_get?, hnew]
        rfl
      rw [prototypes_get?] at hsame
      obtain ⟨old, hold, hkey⟩ := Option.map_eq_some_iff.mp hsame
      obtain ⟨hmem, hsha⟩ := h.named id old hold
      exact ⟨List.mem_append_left _ (hkey ▸ hmem), hkey ▸ hsha⟩
    · intro F hF
      rcases List.mem_append.mp hF with hF | hF
      · exact (h.known F hF).step hstep
      · obtain rfl := List.mem_singleton.mp hF
        exact hknown.step hstep
  · obtain ⟨-, hnew, -, hstore⟩ := h.stored hpos h1 hfree htag ts lead
    refine ⟨?_, ?_⟩
    · intro id row hrow
      rw [hstore, Dict.get?_set] at hrow
      split at hrow
      · rename_i hid
        obtain rfl := Option.some.inj hrow
        exact ⟨List.mem_append_right _ (List.mem_singleton_self fp), hid.symm⟩
      · obtain ⟨hmem, hsha⟩ := h.named id row hrow
        exact ⟨List.mem_append_left _ hmem, hsha⟩
    · intro F hF
      rcases List.mem_append.mp hF with hF | hF
      · exact (h.known F hF).step hstep
      · obtain rfl := List.mem_singleton.mp hF
        have hself : cfg.tauMerge ≤ caseSim F F := by
          rw [caseSim_self]
          exact h1
        refine known_iff.mpr ⟨sha1 F, ⟨F, 1, ts, ts, lead, some (tagFor cfg sha1 cases F).family⟩, ?_, hself⟩
        rw [hstore, Dict.get?_set, if_pos rfl]

/-- The next promotion of the same shape is told the same case. -/
theorem Learned.sameCase (h : Learned cfg sha1 past cases) (hpos : 0 < cfg.tauMerge)
    (h1 : cfg.tauMerge ≤ 1) (hfree : CollisionFree sha1 (past ++ [F])) (hshape : F.shape = G.shape) :
    let after := storeCase ts lead F (tagFor cfg sha1 cases F) cases
    Known cfg after G → (tagFor cfg sha1 after G).caseId = (tagFor cfg sha1 cases F).caseId := by
  intro after hknown
  -- the second is recognised, so its id is the nearest case's
  have hnear : (nearestCase after G).1.map Prod.fst = some (tagFor cfg sha1 after G).caseId := by
    rcases tagFor_cases hpos sha1 after G with ⟨-, hnear, -⟩ | ⟨-, -, hfar⟩
    · exact hnear
    · obtain ⟨id, row, hrow, hsim⟩ := known_iff.mp hknown
      exact absurd hsim (not_le.mpr (hfar id row hrow))
  refine Option.some.inj (hnear.symm.trans ?_)
  rw [← nearestCase_congr hshape]
  rcases tagFor_cases hpos sha1 cases F with ⟨htag, hnear', row, hrow, -⟩ | ⟨htag, -⟩
  · have hprot : prototypes after = prototypes cases := by
      show prototypes (storeCase ts lead F (tagFor cfg sha1 cases F) cases) = _
      rw [storeCase_recurrence htag hrow]
      exact prototypes_fold hrow
    rw [nearestCase_prototypes hprot]
    exact hnear'
  · obtain ⟨hid, hnew, hfar, hstore⟩ := h.stored hpos h1 hfree htag ts lead
    have hself : after.get? (sha1 F) = some ⟨F, 1, ts, ts, lead, some (tagFor cfg sha1 cases F).family⟩ := by
      show (storeCase ts lead F (tagFor cfg sha1 cases F) cases).get? (sha1 F) = _
      rw [hstore, Dict.get?_set, if_pos rfl]
    obtain ⟨hstored, hge, -⟩ := nearestCase_spec after F
    -- the case just stored is the only one within reach
    have hone : 1 ≤ (nearestCase after F).2 := by
      have := hge _ (Dict.get?_eq_some_iff.mp hself)
      rwa [caseSim_self] at this
    cases hbest : (nearestCase after F).1 with
    | none =>
        have hzero := (nearestCase_spec after F).none hbest
        rw [hzero] at hone
        exact absurd hone (by norm_num)
    | some best =>
        have hsim := nearestCase_sim hbest
        have hrow : after.get? best.1 = some best.2 := Dict.get?_eq_some_iff.mpr (hstored best hbest)
        rw [hid]
        by_contra hne
        have hne' : best.1 ≠ sha1 F := fun heq => hne (congrArg some heq)
        have hold : cases.get? best.1 = some best.2 := by
          have hrow' : (storeCase ts lead F (tagFor cfg sha1 cases F) cases).get? best.1 = some best.2 := hrow
          rw [hstore, Dict.get?_set, if_neg hne'] at hrow'
          exact hrow'
        have hlt := hfar _ _ hold
        rw [← hsim] at hlt
        exact absurd (hone.trans_lt hlt) (not_lt.mpr h1)

end Learned

/-! ## Runs -/

/-- The fingerprints a run promotes, in order. -/
def promotedKeys (cfg : MemoryConfig) (calls : List ObserveCall) : List CaseKey :=
  calls.filterMap fun c => fingerprint cfg c.graph

section Run
variable {start : Memory} {calls : List ObserveCall} {i : ℕ} {c : ObserveCall}

theorem promotedKeys_take_succ (hc : calls[i]? = some c) :
    promotedKeys cfg (calls.take (i + 1))
      = promotedKeys cfg (calls.take i) ++ (fingerprint cfg c.graph).toList := by
  unfold promotedKeys
  rw [List.take_add_one, hc, List.filterMap_append]
  cases hfp : fingerprint cfg c.graph with
  | none => simp [hfp]
  | some fp => simp [hfp]

theorem mem_promotedKeys_of_take {F : CaseKey} (h : F ∈ promotedKeys cfg (calls.take i)) :
    F ∈ promotedKeys cfg calls := by
  obtain ⟨c, hc, hF⟩ := List.mem_filterMap.mp h
  exact List.mem_filterMap.mpr ⟨c, List.mem_of_mem_take hc, hF⟩

/-- The thresholds of a memory. -/
structure Thresholds (cfg : MemoryConfig) : Prop where
  family_pos : 0 < cfg.tauFamily
  le : cfg.tauFamily ≤ cfg.tauMerge
  merge_le : cfg.tauMerge ≤ 1

theorem Thresholds.merge_pos (h : Thresholds cfg) : 0 < cfg.tauMerge := h.family_pos.trans_le h.le

/-- What is promoted up to a point of a collision-free run is collision-free. -/
theorem CollisionFree.upTo (hfree : CollisionFree sha1 (promotedKeys cfg calls)) (hc : calls[i]? = some c)
    (hfp : fingerprint cfg c.graph = some fp) :
    CollisionFree sha1 (promotedKeys cfg (calls.take i) ++ [fp]) := by
  have hsub : ∀ F ∈ promotedKeys cfg (calls.take i) ++ [fp], F ∈ promotedKeys cfg calls := by
    intro F hF
    have htake : promotedKeys cfg (calls.take (i + 1)) = promotedKeys cfg (calls.take i) ++ [fp] := by
      rw [promotedKeys_take_succ hc, hfp]
      rfl
    exact mem_promotedKeys_of_take (i := i + 1) (htake ▸ hF)
  intro F hF G hG heq
  exact hfree F (hsub F hF) G (hsub G hG) heq

/-- The library has learned every promotion so far, at every point of a run. -/
theorem learned_stateAt (hcfg : Thresholds cfg) (hstart : start.cases = ∅)
    (hfree : CollisionFree sha1 (promotedKeys cfg calls)) (i : ℕ) :
    Learned cfg sha1 (promotedKeys cfg (calls.take i))
        (stateAt (observeStep cfg sha1) start calls i).cases := by
  induction i with
  | zero =>
      refine ⟨?_, ?_⟩
      · intro id row hrow
        rw [stateAt_zero, hstart] at hrow
        exact absurd hrow (by simp)
      · intro F hF
        exact absurd hF (by simp [promotedKeys])
  | succ i ih =>
      cases hc : calls[i]? with
      | none =>
          rw [stateAt_succ_of_none hc, List.take_add_one, hc]
          simpa using ih
      | some c =>
          rw [stateAt_succ hc, promotedKeys_take_succ hc]
          cases hfp : fingerprint cfg c.graph with
          | none =>
              rw [observeStep_cases_none hfp]
              simpa using ih
          | some fp =>
              rw [observeStep_cases_some hfp]
              exact ih.step hcfg.family_pos hcfg.merge_pos hcfg.merge_le (hfree.upTo hc hfp)

/-- While nothing is promoted the case table stays. -/
theorem cases_idle {j : ℕ} (hij : i ≤ j)
    (hidle : ∀ k c, i ≤ k → k < j → calls[k]? = some c → fingerprint cfg c.graph = none) :
    (stateAt (observeStep cfg sha1) start calls j).cases
      = (stateAt (observeStep cfg sha1) start calls i).cases := by
  induction j, hij using Nat.le_induction with
  | base => rfl
  | succ j hij ih =>
      rw [← ih fun k c hik hkj hc => hidle k c hik (Nat.lt_succ_of_lt hkj) hc]
      cases hc : calls[j]? with
      | none => rw [stateAt_succ_of_none hc]
      | some c => rw [stateAt_succ hc, observeStep_cases_none (hidle j c hij j.lt_succ_self hc)]

end Run

/-- The library never holds two cases of one shape, so there are no more cases than promoted shapes. -/
theorem Learned.card_le {past : List CaseKey} (h : Learned cfg sha1 past cases) (h1 : cfg.tauMerge ≤ 1)
    (hsep : ∀ a b ra rb, a ≠ b → cases.get? a = some ra → cases.get? b = some rb →
      caseSim ra.key rb.key < cfg.tauMerge) :
    cases.keys.length ≤ (past.map CaseKey.shape).toFinset.card := by
  let shapeOf : CaseId → Option CaseShape := fun id => (cases.get? id).map fun row => row.key.shape
  have hmaps : ∀ id ∈ cases.keys.toFinset, shapeOf id ∈ (past.map CaseKey.shape).toFinset.map .some := by
    intro id hid
    obtain ⟨row, hrow⟩ := Dict.mem_keys_iff_get?.mp (List.mem_toFinset.mp hid)
    refine Finset.mem_map.mpr ⟨row.key.shape, ?_, by simp [shapeOf, hrow]⟩
    exact List.mem_toFinset.mpr (List.mem_map_of_mem (h.named id row hrow).1)
  have hinj : Set.InjOn shapeOf cases.keys.toFinset := by
    intro a ha b hb hab
    obtain ⟨ra, hra⟩ := Dict.mem_keys_iff_get?.mp (List.mem_toFinset.mp ha)
    obtain ⟨rb, hrb⟩ := Dict.mem_keys_iff_get?.mp (List.mem_toFinset.mp hb)
    by_contra hne
    have hshape : ra.key.shape = rb.key.shape := by
      simpa [shapeOf, hra, hrb] using hab
    have hlt := hsep a b ra rb hne hra hrb
    rw [caseSim_of_shape hshape] at hlt
    exact absurd h1 (not_le.mpr hlt)
  calc cases.keys.length
      = cases.keys.toFinset.card := (List.toFinset_card_of_nodup cases.keys_nodup).symm
    _ ≤ ((past.map CaseKey.shape).toFinset.map .some).card := Finset.card_le_card_of_injOn shapeOf hmaps hinj
    _ = (past.map CaseKey.shape).toFinset.card := Finset.card_map _

/-- A pass that promotes a shape promoted before is a recurrence, inserts no case and counts exactly one; when
    nothing was promoted in between it is told the case of the earlier pass. -/
def RecognisedForGood (cfg : MemoryConfig) (sha1 : CaseKey → CaseId) (start : Memory)
    (calls : List ObserveCall) : Prop :=
  let at' := stateAt (observeStep cfg sha1) start calls
  ∀ i j ci cj F G, i < j → calls[i]? = some ci → calls[j]? = some cj →
    fingerprint cfg ci.graph = some F → fingerprint cfg cj.graph = some G → F.shape = G.shape →
    ∃ tag, observeTag cfg sha1 (at' j) cj = some tag ∧
      Recognised (at' j).cases (at' (j + 1)).cases tag ∧
      ((∀ k c, i < k → k < j → calls[k]? = some c → fingerprint cfg c.graph = none) →
        (observeTag cfg sha1 (at' i) ci).map CaseTag.caseId = some tag.caseId)

/-- A pass that is not recognised finds its id free and stores its fingerprint under it. -/
def NothingDropped (cfg : MemoryConfig) (sha1 : CaseKey → CaseId) (start : Memory) (calls : List ObserveCall) :
    Prop :=
  let at' := stateAt (observeStep cfg sha1) start calls
  ∀ i c tag, calls[i]? = some c → observeTag cfg sha1 (at' i) c = some tag → tag.register ≠ .recurrence →
    (at' i).cases.get? tag.caseId = none ∧
      ∃ F, fingerprint cfg c.graph = some F ∧ ((at' (i + 1)).cases.get? tag.caseId).map CaseRow.key = some F

/-- **Recognition is permanent.** Over every run from an empty library in which no two promoted fingerprints
    share an id: every shape is recognised for good, nothing is dropped, and there are never more cases than
    promoted shapes. -/
theorem recognition_permanent (cfg : MemoryConfig) (hcfg : Thresholds cfg) (sha1 : CaseKey → CaseId)
    (start : Memory) (hstart : start.cases = ∅) (calls : List ObserveCall)
    (hfree : CollisionFree sha1 (promotedKeys cfg calls)) :
    RecognisedForGood cfg sha1 start calls ∧ NothingDropped cfg sha1 start calls ∧
      ∀ i ≤ calls.length, (stateAt (observeStep cfg sha1) start calls i).cases.keys.length
        ≤ ((promotedKeys cfg (calls.take i)).map CaseKey.shape).toFinset.card := by
  have hlearned := learned_stateAt hcfg hstart hfree
  refine ⟨?_, ?_, ?_⟩
  · unfold RecognisedForGood
    intro at' i j ci cj F G hij hci hcj hF hG hshape
    -- the earlier pass's fingerprint is known from then on
    have hmem : F ∈ promotedKeys cfg (calls.take j) := by
      refine List.mem_filterMap.mpr ⟨ci, ?_, hF⟩
      exact List.mem_of_getElem? ((List.getElem?_take_of_lt hij).trans hci)
    have hknown : Known cfg (at' j).cases G := ((hlearned j).known F hmem).congr hshape
    refine ⟨tagFor cfg sha1 (at' j).cases G, ?_, ?_, ?_⟩
    · rw [observeTag_eq, hG]
      rfl
    · show Recognised (at' j).cases (stateAt (observeStep cfg sha1) start calls (j + 1)).cases _
      rw [stateAt_succ hcj, observeStep_cases_some hG]
      exact hknown.recognised hcfg.merge_pos cj.ts (leadTime cj.graph)
    · intro hidle
      have hafter : (at' j).cases = (at' (i + 1)).cases :=
        cases_idle (Nat.succ_le_of_lt hij) fun k c hik hkj hc => hidle k c hik hkj hc
      have hstep : (at' (i + 1)).cases
          = storeCase ci.ts (leadTime ci.graph) F (tagFor cfg sha1 (at' i).cases F) (at' i).cases := by
        show (stateAt (observeStep cfg sha1) start calls (i + 1)).cases = _
        rw [stateAt_succ hci, observeStep_cases_some hF]
      rw [hafter, hstep] at hknown
      have hsame := (hlearned i).sameCase hcfg.merge_pos hcfg.merge_le (hfree.upTo hci hF) hshape hknown
      rw [observeTag_eq, hF, hafter, hstep]
      exact congrArg some hsame.symm
  · unfold NothingDropped
    intro at' i c tag hc htag hrec
    rw [observeTag_eq] at htag
    obtain ⟨F, hF, rfl⟩ := Option.map_eq_some_iff.mp htag
    obtain ⟨hid, hnew, -, hstore⟩ := (hlearned i).stored hcfg.merge_pos hcfg.merge_le (hfree.upTo hc hF) hrec
      c.ts (leadTime c.graph)
    refine ⟨hid ▸ hnew, F, hF, ?_⟩
    show ((stateAt (observeStep cfg sha1) start calls (i + 1)).cases.get? _).map CaseRow.key = some F
    rw [stateAt_succ hc, observeStep_cases_some hF, hstore, hid, Dict.get?_set, if_pos rfl]
    rfl
  · intro i hi
    refine (hlearned i).card_le hcfg.merge_le ?_
    exact (caseLibrary_separated cfg hcfg.family_pos hcfg.le sha1 start hstart calls i hi).1

theorem recognition_permanent_incidents :
    RecognisedForGood MemoryConfig.default caseHash Memory.empty (incidentCalls ++ incidentCalls) :=
  (recognition_permanent MemoryConfig.default ⟨by decide +kernel, by decide +kernel, by decide +kernel⟩ caseHash
    Memory.empty rfl (incidentCalls ++ incidentCalls) (by unfold CollisionFree; decide +kernel)).1

/-! ### Two tenants under one id -/

/-- The archiver floods a disk that it shares with the database of one tenant. -/
def tenantArgs (tenant : Pod) : PassArgs where
  vectors := Dict.ofList [(tenant, List.replicate 20 0 ++ List.replicate 6 5)]
  witness := ⟨[], [], [("log-archiver-6d-x1", tenant)], []⟩
  sloBreach := none
  caps := ∅
  window := none
  writeVectors := some (Dict.ofList [("log-archiver-6d-x1", List.replicate 20 0 ++ List.replicate 6 500)])
  baselines := none
  recent := none

/-- The pass over one tenant, observed. -/
def tenantCall (tenant : Pod) (ts : ℚ) : ObserveCall where
  graph := runPass numericEstimators (tenantArgs tenant)
  vectors := (tenantArgs tenant).vectors
  witness := some (tenantArgs tenant).witness
  ts := ts
  now := ts

/-- A storm on one tenant, then two on another. The fingerprints of the two tenants differ, and the first 64
    bits of their digests are the same. -/
def tenantCalls : List ObserveCall :=
  [tenantCall "tenant-29f14be7fe9ed69e-7c9d4-bbb22" 5, tenantCall "tenant-b26b7ec6db3b15c3-7c9d4-bbb22" 10,
    tenantCall "tenant-b26b7ec6db3b15c3-7c9d4-bbb22" 15]

/-- The second and third pass promote one fingerprint, and both are told a novel case under the first's id. -/
theorem tenantCalls_facts :
    (fingerprint MemoryConfig.default (tenantCall "tenant-b26b7ec6db3b15c3-7c9d4-bbb22" 10).graph).isSome ∧
    (observeTag MemoryConfig.default caseHash (stateAt (observeStep MemoryConfig.default caseHash) Memory.empty
      tenantCalls 2) (tenantCall "tenant-b26b7ec6db3b15c3-7c9d4-bbb22" 15)).map CaseTag.register =
          some .novel := by
  decide +kernel

/-- The second tenant's storm is never stored, so it is as new the second time as the first. -/
theorem tenantCalls_not_recognised :
    ¬ RecognisedForGood MemoryConfig.default caseHash Memory.empty tenantCalls := by
  obtain ⟨hsome, hnovel⟩ := tenantCalls_facts
  obtain ⟨F, hF⟩ := Option.isSome_iff_exists.mp hsome
  intro h
  obtain ⟨tag, htag, hrec, -⟩ := h 1 2 _ _ F F (by decide) rfl rfl hF hF rfl
  rw [htag] at hnovel
  have hreg : tag.register = .novel := Option.some.inj hnovel
  rw [hrec.register] at hreg
  exact absurd hreg (by decide)

end EdgeCausal
