import EdgeCausal.Engine.State
import EdgeCausal.Temporal.History

/-!
# `Correctness.EdgeMemory` — the edge memory, one row at a time

A call of `observe` touches the row of a key in at most three ways: it seeds the row, confirms it once per
edge that projects to the key, or decays it. `updateEdges_get?` says so for every key at once, and
`rowAfter_cases` is the only case split later arguments make: a row is confirmed, decayed, or left alone.

On it rest the representation invariant of a row (`RowInv`), which seeding breaks and the rest of the same
call restores, and the reading of a row as a summary of its whole past.
-/

namespace EdgeCausal

open Lib

variable (cfg : MemoryConfig)

/-! ## The effect of a call on one key -/

/-- The witness seeds the key: one of its shared-disk pairs, both workloads live, projects to it. -/
def Seeds (w : Option Witness) (present : List Workload) (k : EdgeKey) : Prop :=
  ∃ pair ∈ (w.map Witness.sharedRelation).getD [], seedKey cfg present pair = some k

instance (w : Option Witness) (present : List Workload) (k : EdgeKey) :
    Decidable (Seeds cfg w present k) := by
  unfold Seeds; infer_instance

/-- The key belongs to this memory and both its workloads have a live pod. -/
def LiveKey (present : List Workload) (k : EdgeKey) : Prop :=
  k.2.2 = cfg.signal ∧ k.1 ∈ present ∧ k.2.1 ∈ present

instance (present : List Workload) (k : EdgeKey) : Decidable (LiveKey cfg present k) := by
  unfold LiveKey; infer_instance

/-- A row confirmed by each of the edges in turn. -/
def confirmRows (ts : ℚ) (edges : List Edge) (row : Option EdgeRow) : Option EdgeRow :=
  edges.foldl (fun row e => some (confirmRow cfg e ts row)) row

/-- The row of a key after seeding. -/
def seededRow (w : Option Witness) (present : List Workload) (ts : ℚ) (k : EdgeKey)
    (row : Option EdgeRow) : Option EdgeRow :=
  if Seeds cfg w present k then some (seedRow cfg ts row) else row

/-- The row of a key after a call, from its row before: seeded, then confirmed by the edges that project to
    the key, or decayed when there is none and the key is live. -/
def rowAfter (edges : List Edge) (present : List Workload) (w : Option Witness) (ts : ℚ) (k : EdgeKey)
    (row : Option EdgeRow) : Option EdgeRow :=
  let own := edges.filter (edgeKey cfg · = k)
  let seeded := seededRow cfg w present ts k row
  if own ≠ [] then confirmRows cfg ts own seeded
  else if LiveKey cfg present k then seeded.map (decayRow cfg ts)
  else seeded

section Row
variable {cfg} {edges : List Edge} {present : List Workload} {w : Option Witness} {ts : ℚ} {k : EdgeKey}
  {row : Option EdgeRow} {rows : Dict EdgeKey EdgeRow}

/-- Seeding a seeded row does nothing. -/
theorem seedRow_idem (ts : ℚ) (row : Option EdgeRow) :
    seedRow cfg ts (some (seedRow cfg ts row)) = seedRow cfg ts row := by
  cases row with
  | none => exact if_neg (lt_irrefl cfg.prior)
  | some old =>
      by_cases h : old.baseConf < cfg.prior
      · simp [seedRow, h]
      · simp [seedRow, h]

/-- However many pairs seed a key, the row is seeded once. -/
theorem foldl_seedRow (l : List (Pod × Pod)) (hl : l ≠ []) (row : Option EdgeRow) :
    l.foldl (fun row _ => some (seedRow cfg ts row)) row = some (seedRow cfg ts row) := by
  induction l generalizing row with
  | nil => exact absurd rfl hl
  | cons p l ih =>
      rw [List.foldl_cons]
      by_cases h : l = []
      · rw [h]; rfl
      · rw [ih h, seedRow_idem]

theorem seedStructural_get? (w : Witness) (k : EdgeKey) :
    (seedStructural cfg w present ts rows).get? k
      = seededRow cfg (some w) present ts k (rows.get? k) := by
  have hstep : ∀ (d : Dict EdgeKey EdgeRow) (pair : Pod × Pod) (k : EdgeKey),
      (seedPair cfg present ts d pair).get? k
        = if seedKey cfg present pair = some k then some (seedRow cfg ts (d.get? k)) else d.get? k := by
    intro d pair k
    unfold seedPair
    cases hkey : seedKey cfg present pair with
    | none => simp
    | some key =>
        by_cases hk : k = key
        · subst hk; simp [Dict.get?_set]
        · simp [Dict.get?_set, hk, Ne.symm hk]
  unfold seedStructural
  rw [Dict.get?_foldl_update hstep]
  unfold seededRow
  split
  · rename_i hs
    obtain ⟨pair, hmem, hkey⟩ := hs
    -- some pair seeds the key; how many do is irrelevant
    refine foldl_seedRow _ ?_ _
    exact List.ne_nil_of_mem (List.mem_filter.mpr ⟨hmem, by simpa using hkey⟩)
  · rename_i hs
    have hnil : (w.sharedRelation.filter fun pair => seedKey cfg present pair = some k) = [] := by
      rw [List.filter_eq_nil_iff]
      intro pair hmem hkey
      exact hs ⟨pair, hmem, by simpa using hkey⟩
    rw [hnil]; rfl

theorem confirmEdges_get? (k : EdgeKey) :
    (edges.foldl (confirmEdge cfg ts) rows).get? k
      = confirmRows cfg ts (edges.filter (edgeKey cfg · = k)) (rows.get? k) := by
  have hstep : ∀ (d : Dict EdgeKey EdgeRow) (e : Edge) (k : EdgeKey),
      (confirmEdge cfg ts d e).get? k
        = if some (edgeKey cfg e) = some k then some (confirmRow cfg e ts (d.get? k)) else d.get? k := by
    intro d e k
    unfold confirmEdge
    rw [Dict.get?_reinsert]
    by_cases hk : k = edgeKey cfg e
    · subst hk; simp
    · simp [hk, Ne.symm hk]
  rw [Dict.get?_foldl_update hstep]
  simp only [Option.some.injEq]
  rfl

theorem decayAbsentEdges_get? {seen : List EdgeKey} (k : EdgeKey) :
    (decayAbsentEdges cfg seen present ts rows).get? k
      = if k ∉ seen ∧ LiveKey cfg present k then (rows.get? k).map (decayRow cfg ts)
        else rows.get? k := by
  unfold decayAbsentEdges LiveKey
  rw [Dict.get?_mapVals]
  cases rows.get? k with
  | none => simp
  | some row =>
      simp only [Option.map_some]
      by_cases h1 : k.2.2 = cfg.signal <;> by_cases h2 : k ∈ seen <;> by_cases h3 : k.1 ∈ present <;>
        by_cases h4 : k.2.1 ∈ present <;> simp [h1, h2, h3, h4]

/-- The row of a key after the confirmations and the decay of a call. -/
theorem confirmDecay_get? (k : EdgeKey) :
    (decayAbsentEdges cfg (edges.map (edgeKey cfg)) present ts
        (edges.foldl (confirmEdge cfg ts) rows)).get? k
      = if edges.filter (edgeKey cfg · = k) ≠ [] then
          confirmRows cfg ts (edges.filter (edgeKey cfg · = k)) (rows.get? k)
        else if LiveKey cfg present k then (rows.get? k).map (decayRow cfg ts)
        else rows.get? k := by
  have hown : k ∈ edges.map (edgeKey cfg) ↔ edges.filter (edgeKey cfg · = k) ≠ [] := by
    rw [ne_eq, List.filter_eq_nil_iff, List.mem_map]
    push Not
    simp
  rw [decayAbsentEdges_get?, confirmEdges_get?]
  by_cases hnil : edges.filter (edgeKey cfg · = k) = []
  · have hseen : k ∉ edges.map (edgeKey cfg) := fun h => hown.mp h hnil
    simp [hnil, hseen, confirmRows]
  · have hseen : k ∈ edges.map (edgeKey cfg) := hown.mpr hnil
    rw [if_neg (fun h => h.1 hseen), if_pos hnil]

/-- **A call, seen from one key.** -/
theorem updateEdges_get? (k : EdgeKey) :
    (updateEdges cfg edges present w ts rows).get? k
      = rowAfter cfg edges present w ts k (rows.get? k) := by
  unfold updateEdges rowAfter
  dsimp only
  rw [confirmDecay_get?]
  cases w with
  | none =>
      have hnone : seededRow cfg none present ts k (rows.get? k) = rows.get? k := by
        simp [seededRow, Seeds]
      rw [hnone]
  | some w => rw [seedStructural_get?]

/-- A pair of pods is seeded under a live key, up the order of the names. -/
theorem seedKey_eq_some {pair : Pod × Pod} (h : seedKey cfg present pair = some k) :
    k.1 < k.2.1 ∧ LiveKey cfg present k := by
  unfold seedKey at h
  dsimp only at h
  split at h
  · rename_i hlive
    obtain rfl := Option.some.inj h
    refine ⟨?_, rfl, hlive.2⟩
    unfold frozenPair
    split
    · rename_i hle
      exact lt_of_le_of_ne hle hlive.1
    · rename_i hlt
      exact not_le.mp hlt
  · exact absurd h (by simp)

/-- Only a live key is seeded. -/
theorem Seeds.liveKey (h : Seeds cfg w present k) : LiveKey cfg present k := by
  obtain ⟨pair, -, hkey⟩ := h
  exact (seedKey_eq_some hkey).2

/-- A seeded key leads up the order of the names. -/
theorem Seeds.lt (h : Seeds cfg w present k) : k.1 < k.2.1 := by
  obtain ⟨pair, -, hkey⟩ := h
  exact (seedKey_eq_some hkey).1

/-- An edge of the call projects to the key. -/
def Projects (cfg : MemoryConfig) (edges : List Edge) (k : EdgeKey) : Prop :=
  ∃ e ∈ edges, edgeKey cfg e = k

theorem projects_iff : Projects cfg edges k ↔ edges.filter (edgeKey cfg · = k) ≠ [] := by
  unfold Projects
  rw [ne_eq, List.filter_eq_nil_iff]
  push Not
  simp

/-- **The three fates of a row**: confirmed after seeding, decayed after seeding, or left alone. -/
theorem rowAfter_cases (cfg : MemoryConfig) (edges : List Edge) (present : List Workload)
    (w : Option Witness) (ts : ℚ) (k : EdgeKey) (row : Option EdgeRow) :
    (Projects cfg edges k ∧ rowAfter cfg edges present w ts k row
        = confirmRows cfg ts (edges.filter (edgeKey cfg · = k)) (seededRow cfg w present ts k row)) ∨
    (¬ Projects cfg edges k ∧ LiveKey cfg present k ∧ rowAfter cfg edges present w ts k row
        = (seededRow cfg w present ts k row).map (decayRow cfg ts)) ∨
    (¬ Projects cfg edges k ∧ ¬ LiveKey cfg present k ∧ ¬ Seeds cfg w present k ∧
      rowAfter cfg edges present w ts k row = row) := by
  unfold rowAfter
  dsimp only
  by_cases hp : Projects cfg edges k
  · exact Or.inl ⟨hp, if_pos (projects_iff.mp hp)⟩
  · have hnil : ¬ edges.filter (edgeKey cfg · = k) ≠ [] := fun h => hp (projects_iff.mpr h)
    rw [if_neg hnil]
    by_cases hl : LiveKey cfg present k
    · exact Or.inr (Or.inl ⟨hp, hl, if_pos hl⟩)
    · have hs : ¬ Seeds cfg w present k := fun h => hl h.liveKey
      rw [if_neg hl]
      exact Or.inr (Or.inr ⟨hp, hl, hs, if_neg hs⟩)

end Row

/-! ## Runs of calls -/

/-- The arguments of one call of `observe`. -/
structure ObserveCall where
  graph : CausalGraph
  vectors : Dict Pod Series
  witness : Option Witness
  ts : ℚ
  now : ℚ

namespace ObserveCall

/-- The workloads with a live pod in the call. -/
def present (c : ObserveCall) : List Workload := podsPresent c.vectors

/-- The row of a key after the call. -/
def rowAfter (cfg : MemoryConfig) (c : ObserveCall) (k : EdgeKey) (row : Option EdgeRow) :
    Option EdgeRow :=
  EdgeCausal.rowAfter cfg c.graph.edges c.present c.witness c.ts k row

end ObserveCall

/-- The memory after one call. -/
def observeStep (cfg : MemoryConfig) (sha1 : CaseKey → CaseId) (m : Memory) (c : ObserveCall) : Memory :=
  (observe cfg sha1 m c.graph c.vectors c.witness c.ts c.now).1

/-- The memory after the first `i` calls of a run from an empty database. -/
def memoryAt (cfg : MemoryConfig) (sha1 : CaseKey → CaseId) (calls : List ObserveCall) (i : ℕ) : Memory :=
  stateAt (observeStep cfg sha1) Memory.empty calls i

theorem observeStep_edgeMemory (cfg : MemoryConfig) (sha1 : CaseKey → CaseId) (m : Memory)
    (c : ObserveCall) :
    (observeStep cfg sha1 m c).edgeMemory
      = updateEdges cfg c.graph.edges c.present c.witness c.ts m.edgeMemory := by
  unfold observeStep observe remember promoteCase
  dsimp only
  cases fingerprint cfg c.graph with
  | none => dsimp only; split <;> rfl
  | some fp => dsimp only; split <;> rfl

/-- **One call, one key**: the row of every key after a call is `rowAfter` of its row before. -/
theorem observeStep_get? (cfg : MemoryConfig) (sha1 : CaseKey → CaseId) (m : Memory) (c : ObserveCall)
    (k : EdgeKey) :
    (observeStep cfg sha1 m c).edgeMemory.get? k = c.rowAfter cfg k (m.edgeMemory.get? k) := by
  rw [observeStep_edgeMemory, updateEdges_get?]; rfl

/-! ## The representation invariant -/

/-- The ranges the settings are meant to lie in. -/
structure MemoryConfig.Bounded (cfg : MemoryConfig) : Prop where
  alpha_pos : 0 < cfg.alpha
  alpha_le : cfg.alpha ≤ 1
  decay_nonneg : 0 ≤ cfg.decay
  decay_le : cfg.decay ≤ 1
  prior_nonneg : 0 ≤ cfg.prior
  prior_le : cfg.prior ≤ cfg.alpha
  floorFrac_nonneg : 0 ≤ cfg.floorFrac
  floorFrac_le : cfg.floorFrac ≤ 1
  hide_nonneg : 0 ≤ cfg.hide
  hide_le : cfg.hide ≤ cfg.show'
  show_le : cfg.show' ≤ 1

/-- What every row satisfies between two calls. -/
structure RowInv (cfg : MemoryConfig) (row : EdgeRow) : Prop where
  base_nonneg : 0 ≤ row.baseConf
  base_le : row.baseConf ≤ row.confidence
  conf_le : row.confidence ≤ 1
  hide_le : row.visible = true → cfg.hide ≤ row.confidence
  active : row.state = .active → row.visible = true
  decaying : row.state = .decaying → row.visible = true
  confirming : row.state = .confirming → row.visible = false
  hidden : row.state = .hidden → row.visible = false
  steady : row.state = .steady → 0 < row.baseConf ∧ row.confidence - row.baseConf ≤ 1 / 1000000000

/-- What is left of it once a row is seeded: the floor may stand above the confidence, though not above
    the prior, and the label may be stale. -/
structure SeededInv (cfg : MemoryConfig) (row : EdgeRow) : Prop where
  base_nonneg : 0 ≤ row.baseConf
  base_le : row.baseConf ≤ max cfg.prior row.confidence
  conf_nonneg : 0 ≤ row.confidence
  conf_le : row.confidence ≤ 1
  hide_le : row.visible = true → cfg.hide ≤ row.confidence

section Invariant
variable {cfg : MemoryConfig} {ts : ℚ} {e : Edge} {edges : List Edge} {row : Option EdgeRow} {r : EdgeRow}

theorem RowInv.seeded (h : RowInv cfg r) : SeededInv cfg r :=
  ⟨h.base_nonneg, h.base_le.trans (le_max_right _ _), h.base_nonneg.trans h.base_le, h.conf_le, h.hide_le⟩

/-- One confirmation moves a confidence towards 1, to `alpha` at least. -/
theorem raise_mem {a c : ℚ} (ha : 0 < a) (ha' : a ≤ 1) (hc : 0 ≤ c) (hc' : c ≤ 1) :
    c ≤ c + a * (1 - c) ∧ a ≤ c + a * (1 - c) ∧ c + a * (1 - c) ≤ 1 := by
  have h1 : 0 ≤ a * (1 - c) := mul_nonneg ha.le (by linarith)
  have h2 : 0 ≤ c * (1 - a) := mul_nonneg hc (by linarith)
  have h3 : 0 ≤ (1 - a) * (1 - c) := mul_nonneg (by linarith) (by linarith)
  refine ⟨by linarith, by linarith, by linarith⟩

/-- A confidence the row has, 0 when there is no row. -/
def confidenceOf (row : Option EdgeRow) : ℚ := (row.map EdgeRow.confidence).getD 0

/-- The learned floor of the row, 0 when there is no row. -/
def baseOf (row : Option EdgeRow) : ℚ := (row.map EdgeRow.baseConf).getD 0

def visibleOf (row : Option EdgeRow) : Bool := (row.map EdgeRow.visible).getD false

/-- A new row is confirmed like one of confidence 0. -/
theorem confirmRow_confidence (cfg : MemoryConfig) (e : Edge) (ts : ℚ) (row : Option EdgeRow) :
    (confirmRow cfg e ts row).confidence
      = confidenceOf row + cfg.alpha * (1 - confidenceOf row) := by
  cases row with
  | none => simp [confirmRow, confidenceOf]
  | some old => rfl

theorem confirmRow_visible (row : Option EdgeRow) :
    (confirmRow cfg e ts row).visible
      = (visibleOf row || decide (cfg.show' ≤ (confirmRow cfg e ts row).confidence)) := rfl

theorem seedRow_seeded (hcfg : cfg.Bounded) (h : ∀ r, row = some r → RowInv cfg r) :
    SeededInv cfg (seedRow cfg ts row) := by
  have hprior1 : cfg.prior ≤ 1 := hcfg.prior_le.trans hcfg.alpha_le
  cases row with
  | none => exact ⟨hcfg.prior_nonneg, le_max_left _ _, hcfg.prior_nonneg, hprior1, by simp [seedRow]⟩
  | some old =>
      have hold := (h old rfl).seeded
      by_cases hlt : old.baseConf < cfg.prior
      · rw [seedRow, if_pos hlt]
        exact ⟨hcfg.prior_nonneg, le_max_left _ _, hold.conf_nonneg, hold.conf_le, hold.hide_le⟩
      · rw [seedRow, if_neg hlt]
        exact hold

/-- What the row of a key, if any, satisfies before it is confirmed. -/
theorem SeededInv.bounds (hcfg : cfg.Bounded) (h : ∀ r, row = some r → SeededInv cfg r) :
    0 ≤ baseOf row ∧ baseOf row ≤ max cfg.prior (confidenceOf row) ∧ 0 ≤ confidenceOf row ∧
      confidenceOf row ≤ 1 ∧ (visibleOf row = true → cfg.hide ≤ confidenceOf row) := by
  cases row with
  | none =>
      refine ⟨le_rfl, le_max_of_le_left hcfg.prior_nonneg, le_rfl, zero_le_one, ?_⟩
      intro hv
      exact absurd hv (by simp [visibleOf])
  | some old =>
      have hold := h old rfl
      exact ⟨hold.base_nonneg, hold.base_le, hold.conf_nonneg, hold.conf_le, hold.hide_le⟩

/-- **Confirming restores the invariant.** -/
theorem confirmRow_inv (hcfg : cfg.Bounded) (h : ∀ r, row = some r → SeededInv cfg r) :
    RowInv cfg (confirmRow cfg e ts row) := by
  obtain ⟨hb0, hb, hc0, hc1, hv⟩ := SeededInv.bounds hcfg h
  obtain ⟨hge, ha, hle⟩ := raise_mem hcfg.alpha_pos hcfg.alpha_le hc0 hc1
  rw [← confirmRow_confidence cfg e ts row] at hge ha hle
  set new := confirmRow cfg e ts row with hnew
  have hfloor : cfg.floorFrac * new.confidence ≤ new.confidence :=
    mul_le_of_le_one_left (hc0.trans hge) hcfg.floorFrac_le
  -- a confirmed confidence is at least `alpha`, hence at least the prior a seed put into the floor
  have hbase : baseOf row ≤ new.confidence :=
    hb.trans (max_le (hcfg.prior_le.trans ha) hge)
  have hstate : new.state = if new.visible then .active else .confirming := rfl
  have hshow : new.visible = true → cfg.hide ≤ new.confidence := by
    intro hvis
    rw [hnew, confirmRow_visible, ← hnew, Bool.or_eq_true, decide_eq_true_eq] at hvis
    rcases hvis with hvis | hvis
    · exact (hv hvis).trans hge
    · exact hcfg.hide_le.trans hvis
  refine ⟨?_, ?_, hle, hshow, ?_, ?_, ?_, ?_, ?_⟩
  · exact hb0.trans (le_max_left _ _)
  · exact max_le hbase hfloor
  all_goals
    intro hst
    rw [hstate] at hst
    cases hvis : new.visible <;> simp [hvis] at hst ⊢

/-- **Decaying restores the invariant.** -/
theorem decayRow_inv (hcfg : cfg.Bounded) (h : SeededInv cfg r) : RowInv cfg (decayRow cfg ts r) := by
  have hprior1 : cfg.prior ≤ 1 := hcfg.prior_le.trans hcfg.alpha_le
  have hbase1 : r.baseConf ≤ 1 := h.base_le.trans (max_le hprior1 h.conf_le)
  -- decay stops at the floor, which is what makes the floor a lower bound again
  have hdec : r.confidence * (1 - cfg.decay) ≤ 1 :=
    mul_le_one₀ h.conf_le (by linarith [hcfg.decay_le]) (by linarith [hcfg.decay_nonneg])
  set new := decayRow cfg ts r with hnew
  have hconf : new.confidence = max r.baseConf (r.confidence * (1 - cfg.decay)) := rfl
  have hbase : new.baseConf = r.baseConf := rfl
  have hvis : new.visible = (r.visible && decide (cfg.hide ≤ new.confidence)) := rfl
  have hstate : new.state = if new.confidence ≤ new.baseConf + 1 / 1000000000 ∧ 0 < new.baseConf then .steady
      else if new.visible then .decaying else .hidden := rfl
  refine ⟨h.base_nonneg, hconf ▸ le_max_left _ _, hconf ▸ max_le hbase1 hdec, ?_, ?_, ?_, ?_, ?_, ?_⟩
  · intro hv
    rw [hvis, Bool.and_eq_true, decide_eq_true_eq] at hv
    exact hv.2
  all_goals
    intro hst
    rw [hstate] at hst
    split at hst
    · rename_i hfl
      first
        | exact absurd hst (by decide)
        | exact ⟨hfl.2, by linarith [hfl.1]⟩
    · cases hv : new.visible <;> simp [hv] at hst ⊢

/-- A row confirmed at least once satisfies the invariant. -/
theorem confirmRows_inv (hcfg : cfg.Bounded) (ts : ℚ) (hne : edges ≠ [])
    (h : ∀ r, row = some r → SeededInv cfg r) : ∃ r, confirmRows cfg ts edges row = some r ∧ RowInv cfg r := by
  induction edges generalizing row with
  | nil => exact absurd rfl hne
  | cons e es ih =>
      have hone : RowInv cfg (confirmRow cfg e ts row) := confirmRow_inv hcfg h
      by_cases hes : es = []
      · rw [hes]
        exact ⟨_, rfl, hone⟩
      · show ∃ r, confirmRows cfg ts es (some (confirmRow cfg e ts row)) = some r ∧ RowInv cfg r
        refine ih hes ?_
        rintro r hr
        obtain rfl := Option.some.inj hr
        exact hone.seeded

theorem seededRow_inv {w : Option Witness} {present : List Workload} {k : EdgeKey} (hcfg : cfg.Bounded)
    (h : ∀ r, row = some r → RowInv cfg r) :
    ∀ r, seededRow cfg w present ts k row = some r → SeededInv cfg r := by
  intro r hr
  unfold seededRow at hr
  split at hr
  · obtain rfl := Option.some.inj hr
    exact seedRow_seeded hcfg h
  · exact (h r hr).seeded

/-- **Step.** A call keeps the invariant of every row. -/
theorem ObserveCall.rowAfter_inv (hcfg : cfg.Bounded) (c : ObserveCall) {k : EdgeKey}
    (h : ∀ r, row = some r → RowInv cfg r) : ∀ r, c.rowAfter cfg k row = some r → RowInv cfg r := by
  intro r hr
  have hseed : ∀ r, seededRow cfg c.witness c.present c.ts k row = some r → SeededInv cfg r :=
    seededRow_inv hcfg h
  unfold ObserveCall.rowAfter at hr
  rcases rowAfter_cases cfg c.graph.edges c.present c.witness c.ts k row with
    ⟨hp, heq⟩ | ⟨-, -, heq⟩ | ⟨-, -, -, heq⟩
  · obtain ⟨r', hr', hinv⟩ := confirmRows_inv hcfg c.ts (projects_iff.mp hp) hseed
    rw [heq, hr'] at hr
    exact Option.some.inj hr ▸ hinv
  · rw [heq] at hr
    obtain ⟨r', hr', rfl⟩ := Option.map_eq_some_iff.mp hr
    exact decayRow_inv hcfg (hseed r' hr')
  · exact h r (heq ▸ hr)

/-- **Run rule.** What every call keeps of a row holds of the rows of all memories of the run. -/
theorem memoryAt_rows {P : EdgeKey → EdgeRow → Prop} {calls : List ObserveCall}
    (hstep : ∀ c ∈ calls, ∀ k row, (∀ r, row = some r → P k r) → ∀ r, c.rowAfter cfg k row = some r → P k r)
    (sha1 : CaseKey → CaseId) (i : ℕ) :
    ∀ k r, (memoryAt cfg sha1 calls i).edgeMemory.get? k = some r → P k r := by
  refine stateAt_inv (I := fun m : Memory => ∀ k r, m.edgeMemory.get? k = some r → P k r) ?_ ?_ i
  · intro k r h
    exact absurd h (by simp [Memory.empty])
  · intro m c hc hm k r h
    rw [observeStep_get?] at h
    exact hstep c hc k _ (hm k) r h

/-- The invariant of every row, over a run. -/
theorem memoryAt_rowInv (hcfg : cfg.Bounded) (sha1 : CaseKey → CaseId) (calls : List ObserveCall) (i : ℕ) :
    ∀ k r, (memoryAt cfg sha1 calls i).edgeMemory.get? k = some r → RowInv cfg r :=
  memoryAt_rows (fun c _ _ _ hrow => c.rowAfter_inv hcfg hrow) sha1 i

end Invariant

/-- **The representation invariant of the edge memory.** After every call of every run from an empty
    database, whatever the graphs, the live pods and the witnesses, every row satisfies `RowInv`. -/
theorem edgeMemory_represents (cfg : MemoryConfig) (hcfg : cfg.Bounded) (sha1 : CaseKey → CaseId)
    (calls : List ObserveCall) :
    ∀ i ≤ calls.length, ∀ row ∈ (memoryAt cfg sha1 calls i).edgeMemory.values, RowInv cfg row := by
  intro i _ row hrow
  obtain ⟨k, hk⟩ := Dict.mem_values_iff_get?.mp hrow
  exact memoryAt_rowInv hcfg sha1 calls i k row hk

/-! ### A short storm -/

theorem default_bounded : MemoryConfig.default.Bounded := by
  constructor <;> decide +kernel

/-- Two storage pods, live throughout. -/
def stormVectors : Dict Pod Series :=
  Dict.ofList [("log-archiver-6d-x1", [0]), ("timescaledb-0-y2", [0])]

def stormEdge : Edge :=
  ⟨"log-archiver-6d-x1", "timescaledb-0-y2", 9 / 10, 5, [.write, .pvc, .temporal]⟩

/-- A call that reports the given edges over the shared disk of the two pods. -/
def stormCall (edges : List Edge) (ts : ℚ) : ObserveCall where
  graph := ⟨[], edges, [], [], 2, 0, edges.length⟩
  vectors := stormVectors
  witness := some ⟨[], [], [("log-archiver-6d-x1", "timescaledb-0-y2")], []⟩
  ts := ts
  now := ts

/-- Seeded, confirmed twice, then decaying. -/
def stormCalls : List ObserveCall :=
  [stormCall [] 5, stormCall [stormEdge] 10, stormCall [stormEdge] 15, stormCall [] 20]

theorem edgeMemory_represents_storm :
    let rows := (memoryAt MemoryConfig.default (fun _ => 0) stormCalls 4).edgeMemory
    rows.values ≠ [] ∧ ∀ row ∈ rows.values, RowInv MemoryConfig.default row :=
  ⟨by decide +kernel,
    edgeMemory_represents MemoryConfig.default default_bounded (fun _ => 0) stormCalls 4 (by decide)⟩

end EdgeCausal
