import EdgeCausal.Clustering.Leader
import EdgeCausal.Correctness.EdgeMemory

/-!
# `Correctness.CaseLibrary` — the case library is a separated leader clustering

A promoted case is compared with every stored prototype and then folded, stored as a variant, or stored as
the founder of a family. Read through `caseLibrary`, that is one step of `Lib.LeaderStep`
(`storeCase_refines`); the library's separation is the clustering's, whatever the hash does: an insert on a
taken id is ignored, so a collision can only drop a case.
-/

namespace EdgeCausal

open Lib

/-! ## Similarity is symmetric -/

theorem jaccard_comm {α : Type} [DecidableEq α] (a b : Finset α) : jaccard a b = jaccard b a := by
  unfold jaccard
  rw [Finset.inter_comm, Finset.union_comm]
  by_cases h : a = ∅ ∧ b = ∅
  · rw [if_pos h, if_pos h.symm]
  · rw [if_neg h, if_neg (fun h' => h h'.symm)]

theorem caseSim_comm (a b : CaseKey) : caseSim a b = caseSim b a := by
  unfold caseSim
  rw [jaccard_comm a.victims.toFinset, jaccard_comm a.stressors.toFinset, jaccard_comm a.motif.toFinset]
  by_cases h : a.signal ≠ b.signal ∨ a.witnessKind ≠ b.witnessKind
  · rw [if_pos h, if_pos (h.imp Ne.symm Ne.symm)]
  · rw [if_neg h, if_neg (fun h' => h (h'.imp Ne.symm Ne.symm))]

variable {cfg : MemoryConfig} {cases : Dict CaseId CaseRow} {fp : CaseKey}

/-! ## The nearest case -/

/-- The running nearest case of a list of stored cases. -/
structure Nearest (fp : CaseKey) (seen : List (CaseId × CaseRow))
    (best : Option (CaseId × CaseRow) × ℚ) : Prop where
  stored : ∀ c, best.1 = some c → c ∈ seen
  ge : ∀ c ∈ seen, caseSim fp c.2.key ≤ best.2
  none : best.1 = none → best.2 = 0

theorem nearestCase_spec (cases : Dict CaseId CaseRow) (fp : CaseKey) :
    Nearest fp cases.entries (nearestCase cases fp) := by
  have h : ∀ (rest seen : List (CaseId × CaseRow)) (best : Option (CaseId × CaseRow) × ℚ),
      Nearest fp seen best → Nearest fp (seen ++ rest) (rest.foldl (nearer fp) best) := by
    intro rest
    induction rest with
    | nil =>
        intro seen best hbest
        rw [List.append_nil]
        exact hbest
    | cons c rest ih =>
        intro seen best hbest
        -- one more stored case
        have hone : Nearest fp (seen ++ [c]) (nearer fp best c) := by
          unfold nearer
          split
          · rename_i hlt
            refine ⟨?_, ?_, by simp⟩
            · intro c' hc'
              obtain rfl := Option.some.inj hc'
              exact List.mem_append_right seen (List.mem_singleton_self c)
            · intro c' hc'
              rcases List.mem_append.mp hc' with hc' | hc'
              · exact (hbest.ge c' hc').trans hlt.le
              · obtain rfl := List.mem_singleton.mp hc'
                exact le_rfl
          · rename_i hle
            refine ⟨fun c' hc' => List.mem_append_left _ (hbest.stored c' hc'), ?_, hbest.none⟩
            intro c' hc'
            rcases List.mem_append.mp hc' with hc' | hc'
            · exact hbest.ge c' hc'
            · obtain rfl := List.mem_singleton.mp hc'
              exact not_lt.mp hle
        have hrest := ih (seen ++ [c]) (nearer fp best c) hone
        rw [List.append_assoc] at hrest
        exact hrest
  have hempty : Nearest fp [] (none, 0) := ⟨by simp, by simp, fun _ => rfl⟩
  exact h cases.entries [] (none, 0) hempty

/-! ## Refinement -/

/-- The stored cases as a library of prototypes. -/
def caseLibrary (cases : Dict CaseId CaseRow) : Library CaseId CaseKey :=
  fun id => (cases.get? id).map fun row => ⟨row.key, familyOf (id, row)⟩

theorem caseLibrary_eq_some {id : CaseId} {m : Member CaseId CaseKey} :
    caseLibrary cases id = some m ↔ ∃ row, cases.get? id = some row ∧ m = ⟨row.key, familyOf (id, row)⟩ := by
  unfold caseLibrary
  rw [Option.map_eq_some_iff]
  exact ⟨fun ⟨row, hr, hm⟩ => ⟨row, hr, hm.symm⟩, fun ⟨row, hr, hm⟩ => ⟨row, hr, hm.symm⟩⟩

/-- Folding changes neither the prototype nor the family. -/
theorem caseLibrary_fold {id : CaseId} {row : CaseRow} {ts : ℚ} {lead : Option ℚ}
    (h : cases.get? id = some row) :
    caseLibrary (cases.set id (foldCase ts lead row)) = caseLibrary cases := by
  funext id'
  unfold caseLibrary
  rw [Dict.get?_set]
  by_cases hid : id' = id
  · subst hid
    rw [if_pos rfl, h]
    rfl
  · rw [if_neg hid]

/-- A new row is a new member. -/
theorem caseLibrary_insert {id family : CaseId} {ts : ℚ} {lead : Option ℚ} :
    caseLibrary (cases.set id ⟨fp, 1, ts, ts, lead, some family⟩)
      = Function.update (caseLibrary cases) id (some ⟨fp, family⟩) := by
  funext id'
  unfold caseLibrary
  rw [Dict.get?_set]
  by_cases hid : id' = id
  · subst hid
    rw [if_pos rfl, Function.update_self]
    rfl
  · rw [if_neg hid, Function.update_of_ne hid]

/-- No stored case is as similar as a bound that the nearest one misses. -/
theorem caseSim_lt_of_nearest {bound : ℚ} (hlt : (nearestCase cases fp).2 < bound) {id : CaseId}
    {m : Member CaseId CaseKey} (hid : caseLibrary cases id = some m) : caseSim fp m.proto < bound := by
  obtain ⟨-, hge, -⟩ := nearestCase_spec cases fp
  obtain ⟨row, hrow, rfl⟩ := caseLibrary_eq_some.mp hid
  exact (hge (id, row) (Dict.get?_eq_some_iff.mp hrow)).trans_lt hlt

theorem caseLibrary_eq_none {id : CaseId} (h : cases.get? id = none) : caseLibrary cases id = none := by
  unfold caseLibrary
  rw [h]
  rfl

/-- A novel case is stored under the new id, unless that is taken. -/
theorem storeCase_novel (newId : CaseId) (ts : ℚ) (lead : Option ℚ) (sim : ℚ)
    (hlt : (nearestCase cases fp).2 < cfg.tauFamily) :
    LeaderStep caseSim cfg.tauFamily cfg.tauMerge (caseLibrary cases)
      (caseLibrary (storeCase ts lead fp ⟨newId, newId, .novel, sim⟩ cases)) := by
  unfold storeCase
  dsimp only
  cases hid : cases.get? newId with
  | some row => exact LeaderStep.same
  | none =>
      dsimp only
      rw [caseLibrary_insert]
      exact LeaderStep.novel (caseLibrary_eq_none hid) fun _ _ => caseSim_lt_of_nearest hlt

/-- So is a variant, in the family of the case it is nearest to. -/
theorem storeCase_variant (newId : CaseId) (ts : ℚ) (lead : Option ℚ) (sim : ℚ) {best : CaseId} {row : CaseRow}
    (hbest : cases.get? best = some row) (hlt : (nearestCase cases fp).2 < cfg.tauMerge) :
    LeaderStep caseSim cfg.tauFamily cfg.tauMerge (caseLibrary cases)
      (caseLibrary (storeCase ts lead fp ⟨newId, familyOf (best, row), .variant, sim⟩ cases)) := by
  unfold storeCase
  dsimp only
  cases hid : cases.get? newId with
  | some row' => exact LeaderStep.same
  | none =>
      dsimp only
      rw [caseLibrary_insert]
      exact LeaderStep.variant (caseLibrary_eq_none hid) (caseLibrary_eq_some.mpr ⟨row, hbest, rfl⟩)
        fun _ _ => caseSim_lt_of_nearest hlt

/-- **Refinement.** Routing and storing a fingerprint is one arrival of the clustering. -/
theorem storeCase_refines (h0 : 0 < cfg.tauFamily) (newId : CaseId) (ts : ℚ) (lead : Option ℚ) :
    LeaderStep caseSim cfg.tauFamily cfg.tauMerge (caseLibrary cases)
      (caseLibrary (storeCase ts lead fp (routeCase cfg newId (nearestCase cases fp)) cases)) := by
  obtain ⟨hstored, -, hnone⟩ := nearestCase_spec cases fp
  have hnovel : ∀ sim, (nearestCase cases fp).2 < cfg.tauFamily →
      LeaderStep caseSim cfg.tauFamily cfg.tauMerge (caseLibrary cases)
        (caseLibrary (storeCase ts lead fp ⟨newId, newId, .novel, sim⟩ cases)) :=
    fun sim hlt => storeCase_novel newId ts lead sim hlt
  rcases hnear : nearestCase cases fp with ⟨_ | ⟨best, row⟩, sim⟩
  · have hsim : sim = 0 := by
      have := hnone (by rw [hnear])
      rwa [hnear] at this
    rw [hnear] at hnovel
    exact hnovel _ (by rw [hsim]; exact h0)
  · rw [hnear] at hstored hnovel
    have hbest : cases.get? best = some row := Dict.get?_eq_some_iff.mpr (hstored _ rfl)
    unfold routeCase
    dsimp only
    split
    · unfold storeCase
      dsimp only
      rw [hbest]
      dsimp only
      rw [caseLibrary_fold hbest]
      exact LeaderStep.same
    · rename_i hmerge
      split
      · exact storeCase_variant newId ts lead sim hbest (by rw [hnear]; exact not_le.mp hmerge)
      · rename_i hfamily
        exact hnovel _ (not_le.mp hfamily)

/-! ## Runs -/

/-- The case table after a pass. -/
theorem observeStep_cases (sha1 : CaseKey → CaseId) (m : Memory) (c : ObserveCall) :
    (observeStep cfg sha1 m c).cases
      = match fingerprint cfg c.graph with
        | none => m.cases
        | some fp => storeCase c.ts (leadTime c.graph) fp
            (routeCase cfg (sha1 fp) (nearestCase m.cases fp)) m.cases := by
  unfold observeStep observe remember promoteCase
  dsimp only
  cases fingerprint cfg c.graph with
  | none => dsimp only; split <;> rfl
  | some fp => dsimp only; split <;> rfl

/-- One call is at most one arrival. -/
theorem observeStep_refines (h0 : 0 < cfg.tauFamily) (sha1 : CaseKey → CaseId) (m : Memory)
    (c : ObserveCall) :
    LeaderStep caseSim cfg.tauFamily cfg.tauMerge (caseLibrary m.cases)
      (caseLibrary (observeStep cfg sha1 m c).cases) := by
  rw [observeStep_cases]
  cases fingerprint cfg c.graph with
  | none => exact LeaderStep.same
  | some fp => exact storeCase_refines h0 (sha1 fp) c.ts (leadTime c.graph)

/-- Every stored case names its family. -/
def FamiliesNamed (cases : Dict CaseId CaseRow) : Prop :=
  ∀ id row, cases.get? id = some row → row.familyId ≠ none

theorem storeCase_familiesNamed {ts : ℚ} {lead : Option ℚ} {tag : CaseTag} (h : FamiliesNamed cases) :
    FamiliesNamed (storeCase ts lead fp tag cases) := by
  have hset : ∀ id (new : CaseRow), new.familyId ≠ none → FamiliesNamed (cases.set id new) := by
    intro id new hnew id' row hrow
    rw [Dict.get?_set] at hrow
    split at hrow
    · exact Option.some.inj hrow ▸ hnew
    · exact h id' row hrow
  unfold storeCase
  split
  · split
    · rename_i row hrow
      exact hset _ _ (h _ row hrow)
    · exact h
  · split
    · exact h
    · exact hset _ _ (by simp)

/-- What holds of the case table at every point of a run. -/
structure LibraryInv (cfg : MemoryConfig) (cases : Dict CaseId CaseRow) : Prop where
  separated : Separated caseSim cfg.tauFamily cfg.tauMerge (caseLibrary cases)
  named : FamiliesNamed cases

/-- **Step.** A call keeps the library separated. -/
theorem observeStep_libraryInv (h0 : 0 < cfg.tauFamily) (h1 : cfg.tauFamily ≤ cfg.tauMerge)
    (sha1 : CaseKey → CaseId) {m : Memory} (c : ObserveCall) (h : LibraryInv cfg m.cases) :
    LibraryInv cfg (observeStep cfg sha1 m c).cases := by
  refine ⟨h.separated.step caseSim_comm h1 (observeStep_refines h0 sha1 m c), ?_⟩
  rw [observeStep_cases]
  cases fingerprint cfg c.graph with
  | none => exact h.named
  | some fp => exact storeCase_familiesNamed h.named

theorem libraryInv_empty : LibraryInv cfg ∅ :=
  ⟨separated_empty, fun _ _ h => absurd h (by simp)⟩

/-- The family a row names is its member's. -/
theorem member_of_row {id f : CaseId} {row : CaseRow} (h : cases.get? id = some row)
    (hf : row.familyId = some f) : caseLibrary cases id = some ⟨row.key, f⟩ := by
  refine caseLibrary_eq_some.mpr ⟨row, h, ?_⟩
  unfold familyOf
  rw [hf]; rfl

/-- **The case library stays separated.** Over every run of calls from an empty library, for every hash:
    two stored cases are less similar than the merge threshold, every case's family is a stored case that is
    its own family, and two such roots are less similar than the family threshold. -/
theorem caseLibrary_separated (cfg : MemoryConfig) (h0 : 0 < cfg.tauFamily)
    (h1 : cfg.tauFamily ≤ cfg.tauMerge) (sha1 : CaseKey → CaseId) (start : Memory) (hstart : start.cases = ∅)
    (calls : List ObserveCall) :
    ∀ i ≤ calls.length, let cases := (stateAt (observeStep cfg sha1) start calls i).cases
      (∀ a b ra rb, a ≠ b → cases.get? a = some ra → cases.get? b = some rb →
        caseSim ra.key rb.key < cfg.tauMerge) ∧
      (∀ a ra, cases.get? a = some ra →
        ∃ f root, ra.familyId = some f ∧ cases.get? f = some root ∧ root.familyId = some f) ∧
      (∀ a b ra rb, a ≠ b → cases.get? a = some ra → cases.get? b = some rb →
        ra.familyId = some a → rb.familyId = some b → caseSim ra.key rb.key < cfg.tauFamily) := by
  intro i _ cases
  have hinv : LibraryInv cfg cases := by
    refine stateAt_inv (I := fun m : Memory => LibraryInv cfg m.cases) ?_ ?_ i
    · rw [hstart]
      exact libraryInv_empty
    · intro m c _ hm
      exact observeStep_libraryInv h0 h1 sha1 c hm
  refine ⟨?_, ?_, ?_⟩
  · intro a b ra rb hab ha hb
    have hma := caseLibrary_eq_some.mpr ⟨ra, ha, rfl⟩
    have hmb := caseLibrary_eq_some.mpr ⟨rb, hb, rfl⟩
    have hfar := hinv.separated.members a b _ _ hab hma hmb
    exact hfar
  · intro a ra ha
    obtain ⟨f, hf⟩ := Option.ne_none_iff_exists'.mp (hinv.named a ra ha)
    obtain ⟨root, hroot, hfam⟩ := hinv.separated.rooted a _ (member_of_row ha hf)
    obtain ⟨row, hrow, rfl⟩ := caseLibrary_eq_some.mp hroot
    obtain ⟨g, hg⟩ := Option.ne_none_iff_exists'.mp (hinv.named f row hrow)
    -- a root's stored family is its own id
    have hgf : g = f := by
      have hfam' : familyOf (f, row) = f := hfam
      unfold familyOf at hfam'
      rw [hg] at hfam'
      exact hfam'
    exact ⟨f, row, hf, hrow, hgf ▸ hg⟩
  · intro a b ra rb hab ha hb hfa hfb
    have hfar := hinv.separated.roots a b _ _ hab (member_of_row ha hfa) (member_of_row hb hfb) rfl rfl
    exact hfar

/-! ### Two incidents of one source -/

/-- A verdict that blames the given pod for the given edges. -/
def incident (root : Pod) (edges : List Edge) : CausalGraph where
  findings := []
  edges := edges
  rootCauseRanking := [⟨root, 1, none⟩]
  blastRadius := edges.map fun e => ⟨e.dst, e.r, e.lagS⟩
  pods := 3
  active := 2
  acceptedEdges := edges.length

/-- A storm on the database, then the same storm with one more victim. -/
def incidentCalls : List ObserveCall :=
  [{ stormCall [] 5 with graph := incident stormEdge.src [stormEdge] },
    { stormCall [] 10 with
      graph := incident stormEdge.src [stormEdge, { stormEdge with dst := "dcim-bridge-5f-z3" }] }]

theorem caseLibrary_separated_incidents :
    let cases := (stateAt (observeStep MemoryConfig.default fun k => BitVec.ofNat 64 k.victims.length)
      Memory.empty incidentCalls 2).cases
    cases.keys.length = 2 ∧ ∀ a b ra rb, a ≠ b → cases.get? a = some ra → cases.get? b = some rb →
      caseSim ra.key rb.key < MemoryConfig.default.tauMerge :=
  ⟨by decide +kernel, (caseLibrary_separated MemoryConfig.default (by decide +kernel) (by decide +kernel)
    (fun k => BitVec.ofNat 64 k.victims.length) Memory.empty rfl incidentCalls 2 (by decide)).1⟩

end EdgeCausal
