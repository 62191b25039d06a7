import EdgeCausal.Correctness.EdgeMemory

/-!
# `Correctness.RowHistory` — a row is its history

A row keeps one confidence, one floor and one bit. `rowAfter_baseConf` and `rowAfter_visible` say how a call
moves the last two, whichever of its three fates the row meets; over a run they integrate to quantities of
the whole past: the floor is fixed by the greatest confidence ever held, the bit is a latch.
-/

namespace EdgeCausal

open Lib

namespace ObserveCall

/-- Both pods of every edge are live in the call. -/
def EdgesLive (c : ObserveCall) : Prop :=
  ∀ e ∈ c.graph.edges, e.src ∈ c.vectors.keys ∧ e.dst ∈ c.vectors.keys

/-- The call seeds the key. -/
def SeedsKey (cfg : MemoryConfig) (c : ObserveCall) (k : EdgeKey) : Prop := Seeds cfg c.witness c.present k

/-- The call confirms the key. -/
def Confirms (cfg : MemoryConfig) (c : ObserveCall) (k : EdgeKey) : Prop := Projects cfg c.graph.edges k

theorem Confirms.liveKey {cfg : MemoryConfig} {c : ObserveCall} {k : EdgeKey} (hlive : c.EdgesLive)
    (h : c.Confirms cfg k) : LiveKey cfg c.present k := by
  obtain ⟨e, he, rfl⟩ := h
  obtain ⟨hs, hd⟩ := hlive e he
  exact ⟨rfl, List.mem_map_of_mem hs, List.mem_map_of_mem hd⟩

end ObserveCall

/-! ## One call -/

section Step
variable {cfg : MemoryConfig} {ts : ℚ} {edges : List Edge} {row : Option EdgeRow} {r r' : EdgeRow}
  {w : Option Witness} {present : List Workload} {k : EdgeKey} {c : ObserveCall}

/-- What several confirmations of one call amount to. -/
theorem confirmRows_spec (hcfg : cfg.Bounded) (hne : edges ≠ [])
    (h : ∀ r, row = some r → SeededInv cfg r) (hr : confirmRows cfg ts edges row = some r) :
    r.baseConf = max (baseOf row) (cfg.floorFrac * r.confidence) ∧ confidenceOf row ≤ r.confidence ∧
      (r.visible = true ↔ visibleOf row = true ∨ cfg.show' ≤ r.confidence) := by
  induction edges generalizing row with
  | nil => exact absurd rfl hne
  | cons e es ih =>
      obtain ⟨-, -, hc0, hc1, -⟩ := SeededInv.bounds hcfg h
      have hraise := (raise_mem hcfg.alpha_pos hcfg.alpha_le hc0 hc1).1
      rw [← confirmRow_confidence cfg e ts row] at hraise
      have hvis : (confirmRow cfg e ts row).visible = true
          ↔ visibleOf row = true ∨ cfg.show' ≤ (confirmRow cfg e ts row).confidence := by
        rw [confirmRow_visible, Bool.or_eq_true, decide_eq_true_eq]
      have hone : RowInv cfg (confirmRow cfg e ts row) := confirmRow_inv hcfg h
      set new := confirmRow cfg e ts row with hnew
      have hr' : confirmRows cfg ts es (some new) = some r := hr
      by_cases hes : es = []
      · subst hes
        obtain rfl := Option.some.inj hr'
        exact ⟨rfl, hraise, hvis⟩
      · have hmid : ∀ r, some new = some r → SeededInv cfg r := by
          rintro r hr
          exact Option.some.inj hr ▸ hone.seeded
        obtain ⟨hb, hc, hv⟩ := ih hes hmid hr'
        -- confidence only rises under confirmation, so the last floor covers the earlier ones
        have hmono : cfg.floorFrac * new.confidence ≤ cfg.floorFrac * r.confidence :=
          mul_le_mul_of_nonneg_left hc hcfg.floorFrac_nonneg
        refine ⟨?_, hraise.trans hc, ?_⟩
        · calc r.baseConf = max new.baseConf (cfg.floorFrac * r.confidence) := hb
            _ = max (max (baseOf row) (cfg.floorFrac * new.confidence)) (cfg.floorFrac * r.confidence) := rfl
            _ = max (baseOf row) (cfg.floorFrac * r.confidence) := by rw [max_assoc, max_eq_right hmono]
        · rw [hv, show visibleOf (some new) = new.visible from rfl, hvis]
          constructor
          · rintro ((hv | hs) | hs)
            · exact Or.inl hv
            · exact Or.inr (hs.trans hc)
            · exact Or.inr hs
          · rintro (hv | hs)
            · exact Or.inl (Or.inl hv)
            · exact Or.inr hs

/-- The floor before seeding, raised to the prior when the call seeds the key. -/
def seededBase (cfg : MemoryConfig) (w : Option Witness) (present : List Workload) (k : EdgeKey)
    (row : Option EdgeRow) : ℚ :=
  if Seeds cfg w present k then max (baseOf row) cfg.prior else baseOf row

theorem seededBase_of_seeds (h : Seeds cfg w present k) :
    seededBase cfg w present k row = max (baseOf row) cfg.prior := if_pos h

theorem seededBase_of_not_seeds (h : ¬ Seeds cfg w present k) :
    seededBase cfg w present k row = baseOf row := if_neg h

theorem baseOf_seededRow (hcfg : cfg.Bounded) (ts : ℚ) :
    baseOf (seededRow cfg w present ts k row) = seededBase cfg w present k row := by
  unfold seededRow seededBase
  split
  · cases row with
    | none => exact (max_eq_right hcfg.prior_nonneg).symm
    | some old =>
        by_cases hlt : old.baseConf < cfg.prior
        · simp [baseOf, seedRow, hlt, max_eq_right hlt.le]
        · simp [baseOf, seedRow, hlt, max_eq_left (not_lt.mp hlt)]
  · rfl

theorem visibleOf_seededRow : visibleOf (seededRow cfg w present ts k row) = visibleOf row := by
  unfold seededRow
  split
  · cases row with
    | none => rfl
    | some old =>
        by_cases hlt : old.baseConf < cfg.prior
        · simp [visibleOf, seedRow, hlt]
        · simp [visibleOf, seedRow, hlt]
  · rfl

/-- A row that has learned its floor: the floor is at least the fraction of the confidence. -/
def FloorLearned (cfg : MemoryConfig) (r : EdgeRow) : Prop := cfg.floorFrac * r.confidence ≤ r.baseConf

theorem seededRow_floorLearned (hcfg : cfg.Bounded) (h : ∀ r, row = some r → FloorLearned cfg r) :
    ∀ r, seededRow cfg w present ts k row = some r → FloorLearned cfg r := by
  intro r hr
  unfold seededRow at hr
  split at hr
  · obtain rfl := Option.some.inj hr
    cases row with
    | none => exact mul_le_of_le_one_left hcfg.prior_nonneg hcfg.floorFrac_le
    | some old =>
        have hold := h old rfl
        by_cases hlt : old.baseConf < cfg.prior
        · rw [seedRow, if_pos hlt]
          exact le_trans hold hlt.le
        · rw [seedRow, if_neg hlt]
          exact hold
  · exact h r hr

/-- **The floor after a call**, whatever befell the row. -/
theorem rowAfter_baseConf (hcfg : cfg.Bounded) (hinv : ∀ r, row = some r → RowInv cfg r)
    (hfl : ∀ r, row = some r → FloorLearned cfg r) (hr : c.rowAfter cfg k row = some r') :
    r'.baseConf = max (seededBase cfg c.witness c.present k row) (cfg.floorFrac * r'.confidence) := by
  have hseed : ∀ r, seededRow cfg c.witness c.present c.ts k row = some r → SeededInv cfg r :=
    seededRow_inv hcfg hinv
  rw [← baseOf_seededRow hcfg c.ts]
  unfold ObserveCall.rowAfter at hr
  rcases rowAfter_cases cfg c.graph.edges c.present c.witness c.ts k row with
    ⟨hp, heq⟩ | ⟨-, -, heq⟩ | ⟨-, -, hs, heq⟩
  · exact (confirmRows_spec hcfg (projects_iff.mp hp) hseed (heq ▸ hr)).1
  · -- decayed: the floor is not written, and it already covers what the confidence falls to
    rw [heq] at hr
    obtain ⟨old, hold, rfl⟩ := Option.map_eq_some_iff.mp hr
    rw [hold]
    show old.baseConf
      = max old.baseConf (cfg.floorFrac * max old.baseConf (old.confidence * (1 - cfg.decay)))
    have hbase := (hseed old hold).base_nonneg
    have hconf := (hseed old hold).conf_nonneg
    have hlearned : cfg.floorFrac * old.confidence ≤ old.baseConf := seededRow_floorLearned hcfg hfl old hold
    have hdecayed : cfg.floorFrac * (old.confidence * (1 - cfg.decay)) ≤ old.baseConf := by
      have : old.confidence * (1 - cfg.decay) ≤ old.confidence :=
        mul_le_of_le_one_right hconf (by linarith [hcfg.decay_nonneg])
      exact (mul_le_mul_of_nonneg_left this hcfg.floorFrac_nonneg).trans hlearned
    have hown : cfg.floorFrac * old.baseConf ≤ old.baseConf := mul_le_of_le_one_left hbase hcfg.floorFrac_le
    rw [mul_max_of_nonneg _ _ hcfg.floorFrac_nonneg]
    exact (max_eq_left (max_le hown hdecayed)).symm
  · rw [heq] at hr
    subst hr
    rw [seededRow, if_neg hs]
    exact (max_eq_left (hfl r' rfl)).symm

/-- **The visible bit after a call**: set by a confirmation at `show`, kept while the confidence stays at
    `hide`. -/
theorem rowAfter_visible (hcfg : cfg.Bounded) (hinv : ∀ r, row = some r → RowInv cfg r)
    (hr : c.rowAfter cfg k row = some r') :
    r'.visible = true ↔
      (visibleOf row = true ∨ (c.Confirms cfg k ∧ cfg.show' ≤ r'.confidence)) ∧ cfg.hide ≤ r'.confidence := by
  have hseed : ∀ r, seededRow cfg c.witness c.present c.ts k row = some r → SeededInv cfg r :=
    seededRow_inv hcfg hinv
  have hinv' : RowInv cfg r' := c.rowAfter_inv hcfg hinv r' hr
  have hvis : visibleOf (seededRow cfg c.witness c.present c.ts k row) = visibleOf row := visibleOf_seededRow
  unfold ObserveCall.rowAfter at hr
  rcases rowAfter_cases cfg c.graph.edges c.present c.witness c.ts k row with
    ⟨hp, heq⟩ | ⟨hp, -, heq⟩ | ⟨hp, -, -, heq⟩
  · -- confirmed: `hide` holds because the invariant of the new row says so
    obtain ⟨-, -, hv⟩ := confirmRows_spec hcfg (projects_iff.mp hp) hseed (heq ▸ hr)
    rw [hvis] at hv
    constructor
    · intro h
      refine ⟨(hv.mp h).imp_right fun hs => ⟨hp, hs⟩, hinv'.hide_le h⟩
    · rintro ⟨h | ⟨-, hs⟩, -⟩
      · exact hv.mpr (Or.inl h)
      · exact hv.mpr (Or.inr hs)
  · rw [heq] at hr
    obtain ⟨old, hold, rfl⟩ := Option.map_eq_some_iff.mp hr
    rw [hold] at hvis
    rw [← hvis]
    show (old.visible && decide (cfg.hide ≤ _)) = true ↔ _
    rw [Bool.and_eq_true, decide_eq_true_eq]
    constructor
    · exact fun h => ⟨Or.inl h.1, h.2⟩
    · rintro ⟨h | ⟨hc, -⟩, hh⟩
      · exact ⟨h, hh⟩
      · exact absurd hc hp
  · rw [heq] at hr
    subst hr
    constructor
    · exact fun h => ⟨Or.inl h, hinv'.hide_le h⟩
    · rintro ⟨h | ⟨hc, -⟩, -⟩
      · exact h
      · exact absurd hc hp

/-- A key that is not live keeps its row. -/
theorem rowAfter_held (hlive : c.EdgesLive) (h : ¬ LiveKey cfg c.present k) :
    c.rowAfter cfg k row = row := by
  unfold ObserveCall.rowAfter
  rcases rowAfter_cases cfg c.graph.edges c.present c.witness c.ts k row with
    ⟨hp, -⟩ | ⟨-, hl, -⟩ | ⟨-, -, -, heq⟩
  · exact absurd (ObserveCall.Confirms.liveKey hlive hp) h
  · exact absurd hl h
  · exact heq

/-- A call that finds or makes a row leaves one. -/
theorem rowAfter_isSome (h : row ≠ none ∨ c.SeedsKey cfg k ∨ c.Confirms cfg k) :
    ∃ r', c.rowAfter cfg k row = some r' := by
  have hseeded : row ≠ none ∨ c.SeedsKey cfg k →
      ∃ r, seededRow cfg c.witness c.present c.ts k row = some r := by
    intro h
    unfold seededRow
    split
    · exact ⟨_, rfl⟩
    · rename_i hs
      rcases h with h | h
      · exact Option.ne_none_iff_exists'.mp h
      · exact absurd h hs
  have hconfirmed : ∀ (edges : List Edge) (row : Option EdgeRow), edges ≠ [] →
      ∃ r, confirmRows cfg c.ts edges row = some r := by
    intro edges
    induction edges with
    | nil => exact fun _ h => absurd rfl h
    | cons e es ih =>
        intro row _
        by_cases hes : es = []
        · exact ⟨_, by rw [hes]; rfl⟩
        · exact ih (some (confirmRow cfg e c.ts row)) hes
  unfold ObserveCall.rowAfter
  rcases rowAfter_cases cfg c.graph.edges c.present c.witness c.ts k row with
    ⟨hp, heq⟩ | ⟨hp, -, heq⟩ | ⟨hp, -, hs, heq⟩
  · rw [heq]
    exact hconfirmed _ _ (projects_iff.mp hp)
  · obtain ⟨r, hr⟩ := hseeded (h.imp_right fun h => h.resolve_right hp)
    exact ⟨decayRow cfg c.ts r, by rw [heq, hr]; rfl⟩
  · rw [heq]
    rcases h with h | h | h
    · exact Option.ne_none_iff_exists'.mp h
    · exact absurd h hs
    · exact absurd h hp

end Step

/-! ## Runs -/

section Run
variable {cfg : MemoryConfig} {sha1 : CaseKey → CaseId} {calls : List ObserveCall} {k : EdgeKey}
  {i n : ℕ} {c : ObserveCall} {r r' : EdgeRow}

/-- The row of a key after the first `i` calls. -/
def rowAt (cfg : MemoryConfig) (sha1 : CaseKey → CaseId) (calls : List ObserveCall) (k : EdgeKey) (i : ℕ) :
    Option EdgeRow := (memoryAt cfg sha1 calls i).edgeMemory.get? k

theorem rowAt_zero : rowAt cfg sha1 calls k 0 = none := rfl

theorem rowAt_succ (hc : calls[i]? = some c) :
    rowAt cfg sha1 calls k (i + 1) = c.rowAfter cfg k (rowAt cfg sha1 calls k i) := by
  unfold rowAt memoryAt
  rw [stateAt_succ hc, observeStep_get?]

theorem rowAt_inv (hcfg : cfg.Bounded) : ∀ r, rowAt cfg sha1 calls k i = some r → RowInv cfg r :=
  fun r hr => memoryAt_rowInv hcfg sha1 calls i k r hr

theorem rowAt_floorLearned (hcfg : cfg.Bounded) :
    ∀ i, ∀ r, rowAt cfg sha1 calls k i = some r → FloorLearned cfg r := by
  intro i
  induction i with
  | zero => intro r hr; exact absurd hr (by simp [rowAt_zero])
  | succ i ih =>
      intro r hr
      cases hc : calls[i]? with
      | none =>
          refine ih r ?_
          rw [← hr]
          unfold rowAt memoryAt
          rw [stateAt_succ_of_none hc]
      | some c =>
          rw [rowAt_succ hc] at hr
          have hbase := rowAfter_baseConf hcfg (rowAt_inv hcfg) ih hr
          unfold FloorLearned
          rw [hbase]
          exact le_max_right _ _

/-- The floor of one call, over a run. -/
theorem rowAt_baseConf (hcfg : cfg.Bounded) (hc : calls[i]? = some c)
    (hr : rowAt cfg sha1 calls k (i + 1) = some r) :
    r.baseConf = max (seededBase cfg c.witness c.present k (rowAt cfg sha1 calls k i))
      (cfg.floorFrac * r.confidence) := by
  rw [rowAt_succ hc] at hr
  exact rowAfter_baseConf hcfg (rowAt_inv hcfg) (rowAt_floorLearned hcfg i) hr

/-- Some call before the `n`-th seeded the key. -/
def SeededBefore (cfg : MemoryConfig) (calls : List ObserveCall) (k : EdgeKey) (n : ℕ) : Prop :=
  ∃ i < n, ∃ c, calls[i]? = some c ∧ c.SeedsKey cfg k

theorem seededBefore_succ (hc : calls[n]? = some c) :
    SeededBefore cfg calls k (n + 1) ↔ SeededBefore cfg calls k n ∨ c.SeedsKey cfg k := by
  constructor
  · rintro ⟨i, hi, c', hc', hs⟩
    rcases Nat.lt_succ_iff_lt_or_eq.mp hi with hi | rfl
    · exact Or.inl ⟨i, hi, c', hc', hs⟩
    · rw [hc] at hc'
      exact Or.inr (Option.some.inj hc' ▸ hs)
  · rintro (⟨i, hi, c', hc', hs⟩ | hs)
    · exact ⟨i, Nat.lt_succ_of_lt hi, c', hc', hs⟩
    · exact ⟨n, n.lt_succ_self, c, hc, hs⟩

/-- The floor a history fixes: the fraction of the peak, and the prior once the key was seeded. -/
def FloorOf (cfg : MemoryConfig) (seeded : Prop) (peak base : ℚ) : Prop :=
  (seeded → base = max cfg.prior (cfg.floorFrac * peak)) ∧ (¬ seeded → base = cfg.floorFrac * peak)

/-- The confidences of a key over a run. -/
def confidenceAt (cfg : MemoryConfig) (sha1 : CaseKey → CaseId) (calls : List ObserveCall) (k : EdgeKey)
    (i : ℕ) : Option ℚ := (rowAt cfg sha1 calls k i).map EdgeRow.confidence

/-- A key without a row has never had one and was never seeded. -/
theorem never_of_rowAt_none (hn : n ≤ calls.length) (h : rowAt cfg sha1 calls k n = none) :
    (∀ i ≤ n, rowAt cfg sha1 calls k i = none) ∧ ¬ SeededBefore cfg calls k n := by
  induction n with
  | zero => exact ⟨fun i hi => by rw [Nat.le_zero.mp hi]; rfl, fun ⟨i, hi, _⟩ => absurd hi (Nat.not_lt_zero i)⟩
  | succ n ih =>
      have hc : calls[n]? = some calls[n] := List.getElem?_eq_getElem hn
      rw [rowAt_succ hc] at h
      -- a call that finds, seeds or confirms the row would leave one
      have hnone : ∀ {P : Prop}, P → (P → ∃ r', calls[n].rowAfter cfg k (rowAt cfg sha1 calls k n) = some r') →
          False := by
        intro P hp hmake
        obtain ⟨r', hr'⟩ := hmake hp
        rw [h] at hr'
        exact absurd hr' (by simp)
      have hrow : rowAt cfg sha1 calls k n = none := by
        by_contra hne
        exact hnone hne fun h => rowAfter_isSome (Or.inl h)
      have hseed : ¬ calls[n].SeedsKey cfg k :=
        fun hs => hnone hs fun h => rowAfter_isSome (Or.inr (Or.inl h))
      obtain ⟨hall, hnever⟩ := ih (Nat.le_of_succ_le hn) hrow
      constructor
      · intro i hi
        rcases Nat.le_succ_iff.mp hi with hi | rfl
        · exact hall i hi
        · rw [rowAt_succ hc]; exact h
      · rw [seededBefore_succ hc]
        exact fun hs => hs.elim hnever hseed

/-- **The floor is fixed by the peak**, for every row of a run. -/
theorem rowAt_floorOf_peak (hcfg : cfg.Bounded) (hn : n ≤ calls.length)
    (hr : rowAt cfg sha1 calls k n = some r) :
    ∃ peak, IsPeak (confidenceAt cfg sha1 calls k) n peak ∧
      FloorOf cfg (SeededBefore cfg calls k n) peak r.baseConf := by
  induction n generalizing r with
  | zero => exact absurd hr (by simp [rowAt_zero])
  | succ n ih =>
      have hc : calls[n]? = some calls[n] := List.getElem?_eq_getElem hn
      have hbase := rowAt_baseConf hcfg hc hr
      have hconf : confidenceAt cfg sha1 calls k (n + 1) = some r.confidence := by
        unfold confidenceAt; rw [hr]; rfl
      have hinv := rowAt_inv hcfg r hr
      have hfc : 0 ≤ cfg.floorFrac * r.confidence :=
        mul_nonneg hcfg.floorFrac_nonneg (hinv.base_nonneg.trans hinv.base_le)
      unfold FloorOf
      rw [seededBefore_succ hc]
      cases hrow : rowAt cfg sha1 calls k n with
      | none =>
          obtain ⟨hall, hnever⟩ := never_of_rowAt_none (Nat.le_of_succ_le hn) hrow
          refine ⟨r.confidence, IsPeak.first (fun i hi => by unfold confidenceAt; rw [hall i hi]; rfl) hconf,
            ?_, ?_⟩
          · rintro (hs | hs)
            · exact absurd hs hnever
            · rw [hbase, seededBase_of_seeds hs, hrow]
              show max (max 0 cfg.prior) _ = _
              rw [max_eq_right hcfg.prior_nonneg]
          · intro hs
            rw [hbase, seededBase_of_not_seeds (fun h => hs (Or.inr h)), hrow]
            exact max_eq_right hfc
      | some old =>
          obtain ⟨peak, hpeak, hseeded, hfresh⟩ := ih (Nat.le_of_succ_le hn) hrow
          have hb : baseOf (some old) = old.baseConf := rfl
          refine ⟨max peak r.confidence, hpeak.succ hconf, ?_, ?_⟩
          · intro hs
            rw [mul_max_of_nonneg _ _ hcfg.floorFrac_nonneg, hbase, ← max_assoc]
            -- the prior enters once, by this call or by an earlier one
            congr 1
            by_cases hold : SeededBefore cfg calls k n
            · by_cases hnew : calls[n].SeedsKey cfg k
              · rw [seededBase_of_seeds hnew, hrow, hb, hseeded hold]
                exact max_eq_left (le_max_left _ _)
              · rw [seededBase_of_not_seeds hnew, hrow, hb, hseeded hold]
            · rw [seededBase_of_seeds (hs.resolve_left hold), hrow, hb, hfresh hold, max_comm]
          · intro hs
            rw [mul_max_of_nonneg _ _ hcfg.floorFrac_nonneg, hbase,
              seededBase_of_not_seeds (fun h => hs (Or.inr h)), hrow, hb, hfresh (fun h => hs (Or.inl h))]

/-- The floor never falls. -/
theorem rowAt_baseConf_mono (hcfg : cfg.Bounded) (hc : calls[i]? = some c)
    (hr : rowAt cfg sha1 calls k i = some r) (hr' : rowAt cfg sha1 calls k (i + 1) = some r') :
    r.baseConf ≤ r'.baseConf := by
  rw [rowAt_baseConf hcfg hc hr', hr]
  refine le_max_of_le_left ?_
  unfold seededBase
  split
  · exact le_max_left _ _
  · exact le_rfl

/-- The key is confirmed in call `i`, at a confidence of `show` or more. -/
def ShownAt (cfg : MemoryConfig) (sha1 : CaseKey → CaseId) (calls : List ObserveCall) (k : EdgeKey) (i : ℕ) :
    Prop :=
  ∃ c, calls[i]? = some c ∧ c.Confirms cfg k ∧
    ∃ r, rowAt cfg sha1 calls k (i + 1) = some r ∧ cfg.show' ≤ r.confidence

/-- The key has a row after `j` calls, at a confidence of `hide` or more. -/
def AboveHide (cfg : MemoryConfig) (sha1 : CaseKey → CaseId) (calls : List ObserveCall) (k : EdgeKey)
    (j : ℕ) : Prop := ∃ r, rowAt cfg sha1 calls k j = some r ∧ cfg.hide ≤ r.confidence

/-- The key's row is visible after `n` calls. -/
def VisibleAt (cfg : MemoryConfig) (sha1 : CaseKey → CaseId) (calls : List ObserveCall) (k : EdgeKey)
    (n : ℕ) : Prop := visibleOf (rowAt cfg sha1 calls k n) = true

/-- One step of the latch. -/
theorem visibleAt_succ (hcfg : cfg.Bounded) (hi : i < calls.length) :
    VisibleAt cfg sha1 calls k (i + 1) ↔
      (VisibleAt cfg sha1 calls k i ∨ ShownAt cfg sha1 calls k i) ∧ AboveHide cfg sha1 calls k (i + 1) := by
  have hc : calls[i]? = some calls[i] := List.getElem?_eq_getElem hi
  unfold VisibleAt ShownAt AboveHide
  cases hr : rowAt cfg sha1 calls k (i + 1) with
  | none => simp [visibleOf]
  | some r =>
      have hvis := rowAfter_visible hcfg (rowAt_inv hcfg) (rowAt_succ hc ▸ hr)
      show r.visible = true ↔ _
      rw [hvis, hc]
      simp

/-- **Hysteresis**: the row is visible exactly when an earlier call confirmed it at `show` and it has stayed
    at `hide` since. -/
theorem visibleAt_iff (hcfg : cfg.Bounded) (hn : n ≤ calls.length) :
    VisibleAt cfg sha1 calls k n ↔
      ∃ i < n, ShownAt cfg sha1 calls k i ∧ ∀ j, i < j → j ≤ n → AboveHide cfg sha1 calls k j :=
  latch_iff (by simp [VisibleAt, rowAt_zero, visibleOf]) (fun _ hi => visibleAt_succ hcfg hi) n hn

/-- **Edge memory is its history.** Over every run of calls whose edges join live pods, and for every pair
    of workloads: a call in which either has no live pod changes nothing; the floor of a row is the fraction
    of the greatest confidence it ever held, or the prior if that is more and the pair was seeded, and it
    never falls; and a row is visible by hysteresis. -/
theorem edgeMemory_history (cfg : MemoryConfig) (hcfg : cfg.Bounded) (sha1 : CaseKey → CaseId)
    (calls : List ObserveCall) (hlive : ∀ c ∈ calls, c.EdgesLive) (u v : Workload) :
    let k := (u, v, cfg.signal)
    (∀ i c, calls[i]? = some c → u ∉ c.present ∨ v ∉ c.present →
      rowAt cfg sha1 calls k (i + 1) = rowAt cfg sha1 calls k i) ∧
    (∀ n ≤ calls.length, ∀ r, rowAt cfg sha1 calls k n = some r →
      ∃ peak, IsPeak (confidenceAt cfg sha1 calls k) n peak ∧
        FloorOf cfg (SeededBefore cfg calls k n) peak r.baseConf) ∧
    (∀ i c r r', calls[i]? = some c → rowAt cfg sha1 calls k i = some r →
      rowAt cfg sha1 calls k (i + 1) = some r' → r.baseConf ≤ r'.baseConf) ∧
    (∀ n ≤ calls.length, ∀ r, rowAt cfg sha1 calls k n = some r →
      (r.visible = true ↔
        ∃ i < n, ShownAt cfg sha1 calls k i ∧ ∀ j, i < j → j ≤ n → AboveHide cfg sha1 calls k j)) := by
  intro k
  refine ⟨?_, ?_, ?_, ?_⟩
  · intro i c hc habsent
    rw [rowAt_succ hc]
    refine rowAfter_held (hlive c (List.mem_of_getElem? hc)) ?_
    rintro ⟨-, hu, hv⟩
    rcases habsent with h | h
    · exact h hu
    · exact h hv
  · intro n hn r hr
    exact rowAt_floorOf_peak hcfg hn hr
  · intro i c r r' hc hr hr'
    exact rowAt_baseConf_mono hcfg hc hr hr'
  · intro n hn r hr
    rw [← visibleAt_iff hcfg hn]
    unfold VisibleAt
    rw [hr]
    rfl

end Run

example : (rowAt MemoryConfig.default (fun _ => 0) stormCalls ("log-archiver", "timescaledb", "psi_io") 4).map
    EdgeRow.visible = some true := by decide +kernel

theorem stormCalls_edgesLive : ∀ c ∈ stormCalls, c.EdgesLive := by
  unfold ObserveCall.EdgesLive
  decide +kernel

theorem edgeMemory_history_storm :
    let k := ("log-archiver", "timescaledb", MemoryConfig.default.signal)
    let row := rowAt MemoryConfig.default (fun _ => 0) stormCalls k
    ∀ n ≤ stormCalls.length, ∀ r, row n = some r →
      ∃ peak, IsPeak (confidenceAt MemoryConfig.default (fun _ => 0) stormCalls k) n peak ∧
        FloorOf MemoryConfig.default (SeededBefore MemoryConfig.default stormCalls k n) peak r.baseConf :=
  (edgeMemory_history MemoryConfig.default default_bounded (fun _ => 0) stormCalls stormCalls_edgesLive
    "log-archiver" "timescaledb").2.1

end EdgeCausal
