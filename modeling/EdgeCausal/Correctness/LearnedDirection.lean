import EdgeCausal.Correctness.Projection
import EdgeCausal.Correctness.RenderExact

/-!
# `Correctness.LearnedDirection` — a learned direction against the seed of the other

A witness seeds a pair of workloads under their alphabetical order, whichever way the pair was learned. The
seed keeps the prior for good (`memoryAt_rowLearnt`); the learned row decays towards its own floor, which is a
fraction of its peak. Of the two the stronger is rendered, so the learned direction lasts as long as its
confidence is above the prior, and for good where the least floor a confirmation leaves is.
-/

namespace EdgeCausal

open Lib

/-! ## What a row has learnt -/

/-- A row that was never confirmed is still as seeded; one that was has a floor from it. -/
structure RowLearnt (cfg : MemoryConfig) (row : EdgeRow) : Prop where
  seed : row.hits = 0 → row.confidence = cfg.prior ∧ row.baseConf = cfg.prior ∧ row.visible = false
  floor : 0 < row.hits → cfg.floorFrac * cfg.alpha ≤ row.baseConf

section Learnt
variable {cfg : MemoryConfig} {ts : ℚ} {edges : List Edge} {row : Option EdgeRow} {r : EdgeRow}
  {c : ObserveCall}
  {k : EdgeKey}

theorem seedRow_learnt (h : ∀ r, row = some r → RowLearnt cfg r) : RowLearnt cfg (seedRow cfg ts row) := by
  cases row with
  | none => exact ⟨fun _ => ⟨rfl, rfl, rfl⟩, fun hpos => absurd hpos (lt_irrefl 0)⟩
  | some old =>
      have hold := h old rfl
      by_cases hlt : old.baseConf < cfg.prior
      · rw [seedRow, if_pos hlt]
        refine ⟨fun hzero => ?_, fun hpos => (hold.floor hpos).trans hlt.le⟩
        exact absurd (hold.seed hzero).2.1 hlt.ne
      · rw [seedRow, if_neg hlt]
        exact hold

theorem seededRow_learnt {w : Option Witness} {present : List Workload}
    (h : ∀ r, row = some r → RowLearnt cfg r) :
    ∀ r, seededRow cfg w present ts k row = some r → RowLearnt cfg r := by
  intro r hr
  unfold seededRow at hr
  split at hr
  · obtain rfl := Option.some.inj hr
    exact seedRow_learnt h
  · exact h r hr

theorem decayRow_learnt (hcfg : cfg.Bounded) (h : RowLearnt cfg r) : RowLearnt cfg (decayRow cfg ts r) := by
  refine ⟨?_, h.floor⟩
  intro hzero
  obtain ⟨hconf, hbase, hvisible⟩ := h.seed hzero
  -- a seed cannot decay: it stands on its floor already
  have hfloor : r.confidence * (1 - cfg.decay) ≤ r.baseConf := by
    rw [hconf, hbase]
    exact mul_le_of_le_one_right hcfg.prior_nonneg (by linarith [hcfg.decay_nonneg])
  refine ⟨?_, hbase, ?_⟩
  · show max r.baseConf (r.confidence * (1 - cfg.decay)) = cfg.prior
    rw [max_eq_left hfloor, hbase]
  · simp [decayRow, hvisible]

/-- Confirmed, a row has at least the confidence of a first confirmation. -/
theorem alpha_le_confirmRows (hcfg : cfg.Bounded) (hne : edges ≠ []) (h : ∀ r, row = some r → SeededInv cfg r)
    (hr : confirmRows cfg ts edges row = some r) : cfg.alpha ≤ r.confidence := by
  obtain ⟨front, last, rfl⟩ := List.eq_nil_or_concat' edges |>.resolve_left hne
  have hfront : ∀ r, confirmRows cfg ts front row = some r → SeededInv cfg r := by
    intro r hr
    by_cases hnil : front = []
    · subst hnil
      exact h r hr
    · obtain ⟨r', hr', hinv⟩ := confirmRows_inv hcfg ts hnil h
      obtain rfl := Option.some.inj (hr'.symm.trans hr)
      exact hinv.seeded
  have hlast : r = confirmRow cfg last ts (confirmRows cfg ts front row) := by
    unfold confirmRows at hr ⊢
    rw [List.foldl_append] at hr
    exact (Option.some.inj hr).symm
  obtain ⟨-, -, hc0, hc1, -⟩ := SeededInv.bounds hcfg hfront
  rw [hlast, confirmRow_confidence]
  exact (raise_mem hcfg.alpha_pos hcfg.alpha_le hc0 hc1).2.1

/-- **Step.** A call keeps the invariant of a row. -/
theorem ObserveCall.rowAfter_learnt (hcfg : cfg.Bounded) (hinv : ∀ r, row = some r → RowInv cfg r)
    (h : ∀ r, row = some r → RowLearnt cfg r) : ∀ r, c.rowAfter cfg k row = some r → RowLearnt cfg r := by
  intro r hr
  have hseeded : ∀ r, EdgeCausal.seededRow cfg c.witness c.present c.ts k row = some r → SeededInv cfg r :=
    seededRow_inv hcfg hinv
  have hlearnt : ∀ r, EdgeCausal.seededRow cfg c.witness c.present c.ts k row = some r → RowLearnt cfg r :=
    seededRow_learnt h
  have hafter := hr
  unfold ObserveCall.rowAfter at hr
  rcases rowAfter_cases cfg c.graph.edges c.present c.witness c.ts k row with
    ⟨hp, heq⟩ | ⟨-, -, heq⟩ | ⟨-, -, -, heq⟩
  · rw [heq] at hr
    have hown := projects_iff.mp hp
    have hhits := hits_after hp hafter
    have hpos : 0 < (c.ownEdges cfg k).length := List.length_pos_of_ne_nil hown
    refine ⟨fun hzero => by omega, fun _ => ?_⟩
    rw [(confirmRows_spec hcfg hown hseeded hr).1]
    exact (mul_le_mul_of_nonneg_left (alpha_le_confirmRows hcfg hown hseeded hr) hcfg.floorFrac_nonneg).trans
      (le_max_right _ _)
  · rw [heq] at hr
    obtain ⟨r', hr', rfl⟩ := Option.map_eq_some_iff.mp hr
    exact decayRow_learnt hcfg (hlearnt r' hr')
  · exact h r (heq ▸ hr)

/-- **Run.** Every row of every memory reached. -/
theorem memoryAt_rowLearnt (hcfg : cfg.Bounded) (sha1 : CaseKey → CaseId) (calls : List ObserveCall) (i : ℕ) :
    ∀ k r, (memoryAt cfg sha1 calls i).edgeMemory.get? k = some r → RowLearnt cfg r := by
  have hboth : ∀ k r, (memoryAt cfg sha1 calls i).edgeMemory.get? k = some r →
      RowInv cfg r ∧ RowLearnt cfg r := by
    refine memoryAt_rows (fun c _ k row hrow r hr => ?_) sha1 i
    have hinv : ∀ r, row = some r → RowInv cfg r := fun r h => (hrow r h).1
    exact ⟨c.rowAfter_inv hcfg hinv r hr,
      ObserveCall.rowAfter_learnt hcfg hinv (fun r h => (hrow r h).2) r hr⟩
  intro k r h
  exact (hboth k r h).2

end Learnt

/-! ## Which of two rows is held -/

section Direction
variable {cfg : MemoryConfig} {rows : Dict EdgeKey EdgeRow} {graph : CausalGraph} {vectors : Dict Pod Series}
  {now : ℚ} {u v : Workload} {row : EdgeRow}

/-- The edge leads from a pod of the one workload to a pod of the other. -/
def ServedEdge.Leads (s : ServedEdge) (u v : Workload) : Prop :=
  stableWorkload s.edge.src = u ∧ stableWorkload s.edge.dst = v

/-- The row under the other direction of the pair, if any, was never confirmed. -/
def Unconfirmed (rows : Dict EdgeKey EdgeRow) (k : EdgeKey) : Prop := ∀ seed, rows.get? k = some seed →
    seed.hits = 0

instance (rows : Dict EdgeKey EdgeRow) (k : EdgeKey) : Decidable (Unconfirmed rows k) :=
  decidable_of_iff ((rows.get? k).all (fun row => row.hits = 0) = true)
    (by simp [Unconfirmed, Option.all_eq_true])

/-- Against a seed of the other direction the row stays the first of the stronger ones. -/
def OutlastsSeed (cfg : MemoryConfig) (rows : Dict EdgeKey EdgeRow) (u v : Workload) (row : EdgeRow) : Prop :=
  ∀ seed, rows.get? (v, u, cfg.signal) = some seed → 0 < cfg.prior →
    (row.visible = true ∨ 0 < row.baseConf) ∧
    (cfg.prior < row.confidence ∨ cfg.prior = row.confidence ∧
      [((u, v, cfg.signal), row), ((v, u, cfg.signal), seed)].Sublist rows.entries)

/-- The pair keeps the direction of its learned row in a rendering. -/
def KeepsDirection (cfg : MemoryConfig) (rows : Dict EdgeKey EdgeRow) (edges : List Edge)
    (vectors : Dict Pod Series)
    (u v : Workload) (row : EdgeRow) : Prop :=
  Joins edges u v ∨ ¬ HasPod vectors u ∨ ¬ HasPod vectors v ∨ OutlastsSeed cfg rows u v row

theorem rivals_nodup (pair : Workload × Workload) : (rivals cfg rows pair).Nodup :=
  (List.Nodup.of_map Prod.fst rows.keys_nodup).filter _

/-- A rival is the row of one direction or of the other. -/
theorem mem_rivals_cases {key : EdgeKey} {r : EdgeRow} (h : (key, r) ∈ rivals cfg rows (frozenPair u v)) :
    key = (u, v, cfg.signal) ∨ key = (v, u, cfg.signal) := by
  obtain ⟨a, b, sig⟩ := key
  obtain ⟨-, hpair, hhold⟩ := mem_rivals.mp h
  have hhold' : sig = cfg.signal ∧ (r.visible = true ∨ 0 < r.baseConf) := of_decide_eq_true hhold
  rcases frozenPair_eq_iff.mp hpair with ⟨h1, h2⟩ | ⟨h1, h2⟩
  · exact Or.inl (Prod.ext h1 (Prod.ext h2 hhold'.1))
  · exact Or.inr (Prod.ext h1 (Prod.ext h2 hhold'.1))

/-- With a row each way there is no other rival. -/
theorem rivals_of_two {seed : EdgeRow} (hrow : rows.get? (u, v, cfg.signal) = some row)
    (hseed : rows.get? (v, u, cfg.signal) = some seed) :
    ∀ kr ∈ rivals cfg rows (frozenPair u v),
      kr = ((u, v, cfg.signal), row) ∨ kr = ((v, u, cfg.signal), seed) := by
  rintro ⟨key, r⟩ hkr
  have hget : rows.get? key = some r := (mem_rivals.mp hkr).1
  rcases mem_rivals_cases hkr with rfl | rfl
  · obtain rfl := Option.some.inj (hget.symm.trans hrow)
    exact Or.inl rfl
  · obtain rfl := Option.some.inj (hget.symm.trans hseed)
    exact Or.inr rfl

/-- Rivals stand as they do in the table. -/
theorem sublist_rivals_iff {pair : Workload × Workload} {a b : EdgeKey × EdgeRow}
    (ha : a ∈ rivals cfg rows pair)
    (hb : b ∈ rivals cfg rows pair) : [a, b].Sublist (rivals cfg rows pair) ↔ [a, b].Sublist rows.entries := by
  constructor
  · intro h
    exact h.trans List.filter_sublist
  · intro h
    have hfilter := h.filter fun kr => frozenPair kr.1.1 kr.1.2.1 = pair ∧ holdable cfg kr.1 kr.2 = true
    rw [List.filter_cons_of_pos (List.of_mem_filter ha),
      List.filter_cons_of_pos (List.of_mem_filter hb)] at hfilter
    exact hfilter

section Rows
variable (hrow : rows.get? (u, v, cfg.signal) = some row) (hhits : 0 < row.hits)
  (hseed : Unconfirmed rows (v, u, cfg.signal)) (hlearnt : ∀ k r, rows.get? k = some r → RowLearnt cfg r)

include hrow in
theorem learned_mem_rivals : ((u, v, cfg.signal), row) ∈ rivals cfg rows (frozenPair u v) ↔
    row.visible = true ∨ 0 < row.baseConf := by
  rw [mem_rivals]
  constructor
  · rintro ⟨-, -, hhold⟩
    exact (of_decide_eq_true hhold : cfg.signal = cfg.signal ∧ _).2
  · intro hshown
    exact ⟨hrow, rfl, decide_eq_true ⟨rfl, hshown⟩⟩

include hseed hlearnt in
/-- A seed competes when the prior is worth something. -/
theorem seed_mem_rivals {seed : EdgeRow} : ((v, u, cfg.signal), seed) ∈ rivals cfg rows (frozenPair u v) ↔
    rows.get? (v, u, cfg.signal) = some seed ∧ 0 < cfg.prior := by
  rw [mem_rivals]
  constructor
  · rintro ⟨hget, -, hhold⟩
    have hshown := (of_decide_eq_true hhold : cfg.signal = cfg.signal ∧ _).2
    obtain ⟨-, hbase, hvisible⟩ := (hlearnt _ _ hget).seed (hseed seed hget)
    refine ⟨hget, ?_⟩
    rcases hshown with hvis | hpos
    · exact absurd (hvis.symm.trans hvisible) (by simp)
    · exact hbase ▸ hpos
  · rintro ⟨hget, hprior⟩
    obtain ⟨-, hbase, -⟩ := (hlearnt _ _ hget).seed (hseed seed hget)
    exact ⟨hget, frozenPair_comm v u, decide_eq_true ⟨rfl, Or.inr (hbase ▸ hprior)⟩⟩

include hrow hhits hseed

theorem learned_ne : u ≠ v := by
  rintro rfl
  exact absurd (hseed row hrow) hhits.ne'

include hlearnt

/-- Between the two rows the learned one wins by its confidence, or by its place in the table. -/
theorem learned_wins_iff {seed : EdgeRow} (hget : rows.get? (v, u, cfg.signal) = some seed)
    (hprior : 0 < cfg.prior)
    (hshown : row.visible = true ∨ 0 < row.baseConf) :
    firstMax (fun kr : EdgeKey × EdgeRow => kr.2.confidence) (rivals cfg rows (frozenPair u v))
        = some ((u, v, cfg.signal), row) ↔
      cfg.prior < row.confidence ∨ cfg.prior = row.confidence ∧
        [((u, v, cfg.signal), row), ((v, u, cfg.signal), seed)].Sublist rows.entries := by
  have hne : ((u, v, cfg.signal), row) ≠ ((v, u, cfg.signal), seed) := by
    intro h
    exact learned_ne hrow hhits hseed (congrArg (fun kr : EdgeKey × EdgeRow => kr.1.1) h)
  have hown := (learned_mem_rivals hrow).mpr hshown
  have hother := (seed_mem_rivals hseed hlearnt).mpr ⟨hget, hprior⟩
  rw [firstMax_pair_iff (rivals_nodup _) hown hne (rivals_of_two hrow hget), sublist_rivals_iff hown hother]
  dsimp only
  rw [((hlearnt _ _ hget).seed (hseed seed hget)).1]
  simp only [hother, not_true_eq_false, false_or]

/-- **The row that is held is the learned one, or it is not.** -/
theorem winner_iff : (∀ key r, firstMax (fun kr : EdgeKey × EdgeRow => kr.2.confidence)
      (rivals cfg rows (frozenPair u v)) = some (key, r) → key = (u, v, cfg.signal)) ↔
    OutlastsSeed cfg rows u v row := by
  constructor
  · intro h seed hget hprior
    have hmem := (seed_mem_rivals hseed hlearnt).mpr ⟨hget, hprior⟩
    cases hmax : firstMax (fun kr : EdgeKey × EdgeRow => kr.2.confidence)
        (rivals cfg rows (frozenPair u v)) with
    | none => exact absurd hmem (by rw [firstMax_eq_none_iff.mp hmax]; exact List.not_mem_nil)
    | some best =>
        obtain ⟨key, r⟩ := best
        obtain rfl := h key r hmax
        obtain rfl : r = row := Option.some.inj ((mem_rivals.mp (firstMax_mem hmax)).1.symm.trans hrow)
        have hshown := (learned_mem_rivals hrow).mp (firstMax_mem hmax)
        exact ⟨hshown, (learned_wins_iff hrow hhits hseed hlearnt hget hprior hshown).mp hmax⟩
  · intro h key r hmax
    rcases mem_rivals_cases (firstMax_mem hmax) with rfl | rfl
    · rfl
    · -- a seed that is held is worth something, and then the learned row wins
      obtain ⟨hget, hprior⟩ := (seed_mem_rivals hseed hlearnt).mp (firstMax_mem hmax)
      obtain ⟨hshown, hbeats⟩ := h r hget hprior
      have hwins := (learned_wins_iff hrow hhits hseed hlearnt hget hprior hshown).mpr hbeats
      exact congrArg Prod.fst (Option.some.inj (hmax.symm.trans hwins))

/-- What is held for the pair leads as it was learned exactly where the learned row is the one held. -/
theorem heldFor_leads_iff :
    (∀ s ∈ (render cfg rows graph vectors now).heldFor u v, s.Leads u v) ↔
      KeepsDirection cfg rows graph.edges vectors u v row := by
  have hne := learned_ne hrow hhits hseed
  unfold KeepsDirection
  by_cases hfree : Joins graph.edges u v
  · refine iff_of_true ?_ (Or.inl hfree)
    intro s hs
    obtain ⟨hs, hpair⟩ := mem_heldFor.mp hs
    exact absurd hfree (mem_heldEdges hs hpair).1
  by_cases hpods : HasPod vectors u ∧ HasPod vectors v
  · rw [← winner_iff hrow hhits hseed hlearnt]
    simp only [hfree, hpods.1, hpods.2, not_true_eq_false, false_or]
    constructor
    · rintro h key r hmax
      have hrival := firstMax_mem hmax
      obtain ⟨hsrc, hdst⟩ := (hasPod_pair (mem_rivals.mp hrival).2.1).mpr hpods
      obtain ⟨s, hs, -⟩ := exists_heldEdge_of_pods (key, r) now hsrc hdst
      obtain ⟨hu, -⟩ := h s (mem_heldFor.mpr (mem_heldEdges_iff.mpr ⟨hfree, (key, r), hmax, hs⟩))
      -- the edge leads out of its row's source
      rcases mem_rivals_cases hrival with rfl | rfl
      · rfl
      · exact absurd (hu.symm.trans (heldEdge_leads hs).1) hne
    · intro h s hs
      obtain ⟨-, ⟨key, r⟩, hmax, hheld⟩ := mem_heldEdges_iff.mp (mem_heldFor.mp hs)
      obtain rfl := h key r hmax
      exact heldEdge_leads hheld
  · refine iff_of_true ?_ ?_
    · intro s hs
      obtain ⟨hs, hpair⟩ := mem_heldFor.mp hs
      exact absurd (mem_heldEdges hs hpair).2.1 hpods
    · by_cases hu : HasPod vectors u
      · exact Or.inr (Or.inr (Or.inl fun hv => hpods ⟨hu, hv⟩))
      · exact Or.inr (Or.inl hu)

end Rows

end Direction

/-! ## Over runs -/

section Runs
variable {cfg : MemoryConfig} (hcfg : cfg.Bounded) (sha1 : CaseKey → CaseId) (calls : List ObserveCall) (i : ℕ)
  {u v : Workload} {row : EdgeRow}
  (hrow : (memoryAt cfg sha1 calls i).edgeMemory.get? (u, v, cfg.signal) = some row) (hhits : 0 < row.hits)
  (hseed : Unconfirmed (memoryAt cfg sha1 calls i).edgeMemory (v, u, cfg.signal))
include hcfg hrow hhits hseed

/-- **A floor above the prior is enough**: where the least floor that a confirmation leaves is above the prior,
    no run turns a learned edge round. -/
theorem leads_of_prior_lt (hprior : cfg.prior < cfg.floorFrac * cfg.alpha) (graph : CausalGraph)
    (vectors : Dict Pod Series) (now : ℚ) :
    ∀ s ∈ (render cfg (memoryAt cfg sha1 calls i).edgeMemory graph vectors now).heldFor u v, s.Leads u v := by
  rw [heldFor_leads_iff hrow hhits hseed (memoryAt_rowLearnt hcfg sha1 calls i)]
  have hfloor := (memoryAt_rowLearnt hcfg sha1 calls i _ _ hrow).floor hhits
  have hbase : cfg.prior < row.baseConf := hprior.trans_le hfloor
  have hconf : cfg.prior < row.confidence := hbase.trans_le (memoryAt_rowInv hcfg sha1 calls i _ _ hrow).base_le
  refine Or.inr (Or.inr (Or.inr ?_))
  intro seed _ _
  exact ⟨Or.inr (hcfg.prior_nonneg.trans_lt hbase), Or.inl hconf⟩

/-- **A learned direction is kept exactly while it outlasts the seed of the other.** After any calls, for a pair
    confirmed one way and never the other, what a rendering holds for the pair leads the way it was learned if
    and only if the rendering has no edge to hold (an edge of the pass joins the pair, or a workload has no pod)
    or there is no seed of the other way, or the prior is 0, or the learned row may be held and is above the
    prior, or at the prior and before the seed in the table. -/
theorem learned_direction_iff (graph : CausalGraph) (vectors : Dict Pod Series) (now : ℚ) :
    (∀ s ∈ (render cfg (memoryAt cfg sha1 calls i).edgeMemory graph vectors now).heldFor u v, s.Leads u v) ↔
      KeepsDirection cfg (memoryAt cfg sha1 calls i).edgeMemory graph.edges vectors u v row :=
  heldFor_leads_iff hrow hhits hseed (memoryAt_rowLearnt hcfg sha1 calls i)

end Runs

/-! ### A short storm, a long calm -/

/-- One edge against the order of the names, then quiet: both pods stay up and share their disk. -/
def calmCalls : List ObserveCall :=
  stormCall [⟨"timescaledb-0-y2", "log-archiver-6d-x1", 9 / 10, 5, [.write, .pvc, .temporal]⟩] 5 ::
    (List.range 7).map fun k => stormCall [] (10 + 5 * k)

/-- The memory after the first calls. -/
def calmMemory (i : ℕ) : Dict EdgeKey EdgeRow :=
  (memoryAt MemoryConfig.default (fun _ => 0) calmCalls i).edgeMemory

/-- After six quiet passes the learned row is still above the prior. -/
theorem calm_six : ∃ row, (calmMemory 7).get? ("timescaledb", "log-archiver", "psi_io") = some row ∧
    0 < row.hits ∧ 0 < row.baseConf ∧ MemoryConfig.default.prior < row.confidence := by
  have h : ((calmMemory 7).get? ("timescaledb", "log-archiver", "psi_io")).any (fun row =>
      0 < row.hits ∧ 0 < row.baseConf ∧ MemoryConfig.default.prior < row.confidence) = true := by decide +kernel
  obtain ⟨row, hrow, hkept⟩ := (Option.any_eq_true _ _).mp h
  exact ⟨row, hrow, of_decide_eq_true hkept⟩

theorem learned_direction_iff_calm :
    ((render MemoryConfig.default (calmMemory 7) (stormCall [] 35).graph stormVectors 35).heldFor
      "timescaledb" "log-archiver").length = 1 ∧
    ∀ s ∈ (render MemoryConfig.default (calmMemory 7) (stormCall [] 35).graph stormVectors 35).heldFor
      "timescaledb" "log-archiver", s.Leads "timescaledb" "log-archiver" := by
  obtain ⟨row, hrow, hhits, hbase, hconf⟩ := calm_six
  have hseed : Unconfirmed (calmMemory 7) ("log-archiver", "timescaledb", "psi_io") := by decide +kernel
  refine ⟨by decide +kernel, ?_⟩
  refine (learned_direction_iff default_bounded (fun _ => 0) calmCalls 7 hrow hhits hseed _ _ _).mpr ?_
  exact Or.inr (Or.inr (Or.inr fun _ _ _ => ⟨Or.inr hbase, Or.inl hconf⟩))

/-- The seventh turns the edge round: the row was confirmed once, the other direction never. -/
theorem calm_reverses :
    ((calmMemory 8).get? ("timescaledb", "log-archiver", "psi_io")).map EdgeRow.hits = some 1 ∧
    ((calmMemory 8).get? ("log-archiver", "timescaledb", "psi_io")).map EdgeRow.hits = some 0 ∧
    ((observe MemoryConfig.default (fun _ => 0) (memoryAt MemoryConfig.default (fun _ => 0) calmCalls 7)
        (stormCall [] 40).graph stormVectors (stormCall [] 40).witness 40 40).2.heldFor "timescaledb"
        "log-archiver").map (fun s => (s.edge.src, s.edge.dst)) = [("log-archiver-6d-x1", "timescaledb-0-y2")] ∧
    ¬ ∀ s ∈ (render MemoryConfig.default (calmMemory 8)
      (stormCall [] 40).graph stormVectors 40).heldFor "timescaledb"
      "log-archiver", s.Leads "timescaledb" "log-archiver" := by
  have hheld : ((render MemoryConfig.default (calmMemory 8) (stormCall [] 40).graph stormVectors 40).heldFor
      "timescaledb" "log-archiver").any (fun s => stableWorkload s.edge.src = "log-archiver") = true :=
        by decide +kernel
  refine ⟨by decide +kernel, by decide +kernel, by decide +kernel, ?_⟩
  intro h
  obtain ⟨s, hs, hsrc⟩ := List.any_eq_true.mp hheld
  exact absurd ((of_decide_eq_true hsrc).symm.trans (h s hs).1) (by decide)

end EdgeCausal
