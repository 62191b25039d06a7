import EdgeCausal.Correctness.RowHistory

/-!
# `Correctness.Hysteresis` — how fast an edge appears and how long it stays

`visibleAt_iff` reads the visible bit as a latch on the confidence. Here the confidence itself is bounded by
counting: the doubt `1 - confidence` shrinks by `1 - alpha` with every confirmation and by nothing else, and
the confidence shrinks by `1 - decay` with every miss, a call in which both workloads are live and the edge is
not reported. So an edge cannot appear before it was confirmed often enough (`visible_hits`), does appear when
it is confirmed that often without a miss (`visible_of_hits`), and once shown outlives a number of misses that
the settings fix (`visible_of_misses`), whatever else the calls contain.
-/

namespace EdgeCausal

open Lib

namespace ObserveCall

/-- How often the call confirms the key: once per edge that projects to it. -/
def hits (cfg : MemoryConfig) (c : ObserveCall) (k : EdgeKey) : ℕ :=
  (c.graph.edges.filter (edgeKey cfg · = k)).length

/-- The call misses the key: both its workloads are live, and no edge projects to it. -/
def Misses (cfg : MemoryConfig) (c : ObserveCall) (k : EdgeKey) : Prop :=
  c.hits cfg k = 0 ∧ LiveKey cfg c.present k

instance (cfg : MemoryConfig) (c : ObserveCall) (k : EdgeKey) : Decidable (c.Misses cfg k) := by
  unfold Misses; infer_instance

theorem confirms_iff {cfg : MemoryConfig} {c : ObserveCall} {k : EdgeKey} :
    c.Confirms cfg k ↔ 0 < c.hits cfg k := by
  unfold Confirms hits
  rw [projects_iff, List.length_pos_iff]

theorem hits_eq_zero {cfg : MemoryConfig} {c : ObserveCall} {k : EdgeKey}
    (h : ¬ Projects cfg c.graph.edges k) : c.hits cfg k = 0 := by
  by_contra hne
  exact h (confirms_iff.mpr (Nat.pos_of_ne_zero hne))

end ObserveCall

/-- The confirmations of a key from call `i` on and before call `j`. -/
def hitsBetween (cfg : MemoryConfig) (calls : List ObserveCall) (k : EdgeKey) (i j : ℕ) : ℕ :=
  ((between calls i j).map fun c => c.hits cfg k).sum

/-- The misses of a key from call `i` on and before call `j`. -/
def missesBetween (cfg : MemoryConfig) (calls : List ObserveCall) (k : EdgeKey) (i j : ℕ) : ℕ :=
  (between calls i j).countP fun c => c.Misses cfg k

/-! ## One call -/

section Step
variable {cfg : MemoryConfig} {ts : ℚ} {edges : List Edge} {row : Option EdgeRow} {r : EdgeRow}
  {w : Option Witness} {present : List Workload} {k : EdgeKey} {c : ObserveCall}

/-- Every confirmation takes the same fraction of the doubt away. -/
theorem confirmRows_doubt :
    1 - confidenceOf (confirmRows cfg ts edges row)
      = (1 - cfg.alpha) ^ edges.length * (1 - confidenceOf row) := by
  induction edges generalizing row with
  | nil => simp [confirmRows]
  | cons e es ih =>
      have hone : confidenceOf (some (confirmRow cfg e ts row))
          = confidenceOf row + cfg.alpha * (1 - confidenceOf row) := confirmRow_confidence cfg e ts row
      show 1 - confidenceOf (confirmRows cfg ts es (some (confirmRow cfg e ts row))) = _
      rw [ih, hone, List.length_cons, pow_succ]
      ring

/-- Seeding gives a new row the prior and leaves the confidence of an old one. -/
theorem confidenceOf_seededRow (hcfg : cfg.Bounded) (w : Option Witness) (present : List Workload) (ts : ℚ)
    (k : EdgeKey) (row : Option EdgeRow) :
    confidenceOf row ≤ confidenceOf (seededRow cfg w present ts k row) ∧
      confidenceOf (seededRow cfg w present ts k row) ≤ max cfg.prior (confidenceOf row) := by
  unfold seededRow
  split
  · cases row with
    | none => exact ⟨hcfg.prior_nonneg, le_max_left _ _⟩
    | some old =>
        have hsame : (seedRow cfg ts (some old)).confidence = old.confidence := by
          by_cases hlt : old.baseConf < cfg.prior
          · rw [seedRow, if_pos hlt]
          · rw [seedRow, if_neg hlt]
        exact ⟨hsame.ge, hsame.le.trans (le_max_right _ _)⟩
  · exact ⟨le_rfl, le_max_right _ _⟩

/-- Decay stops at the floor, which seeding may have raised to the prior. -/
theorem decayRow_confidence (hcfg : cfg.Bounded) (ts : ℚ) (h : SeededInv cfg r) :
    r.confidence * (1 - cfg.decay) ≤ (decayRow cfg ts r).confidence ∧
      (decayRow cfg ts r).confidence ≤ max cfg.prior r.confidence := by
  have hdec : r.confidence * (1 - cfg.decay) ≤ r.confidence :=
    mul_le_of_le_one_right h.conf_nonneg (by linarith [hcfg.decay_nonneg])
  refine ⟨le_max_right _ _, ?_⟩
  exact max_le h.base_le (hdec.trans (le_max_right _ _))

/-- **Upwards**: a call takes at most one fraction of the doubt per confirmation, or leaves the prior. -/
theorem rowAfter_doubt_ge (hcfg : cfg.Bounded) (hinv : ∀ r, row = some r → RowInv cfg r) :
    (1 - cfg.alpha) ^ c.hits cfg k * (1 - max cfg.prior (confidenceOf row))
      ≤ 1 - confidenceOf (c.rowAfter cfg k row) := by
  have hseed : ∀ r, seededRow cfg c.witness c.present c.ts k row = some r → SeededInv cfg r :=
    seededRow_inv hcfg hinv
  have hseeded := (confidenceOf_seededRow hcfg c.witness c.present c.ts k row).2
  have hpow : 0 ≤ (1 - cfg.alpha) ^ c.hits cfg k := pow_nonneg (by linarith [hcfg.alpha_le]) _
  unfold ObserveCall.rowAfter
  rcases rowAfter_cases cfg c.graph.edges c.present c.witness c.ts k row with
    ⟨-, heq⟩ | ⟨hp, -, heq⟩ | ⟨hp, -, -, heq⟩
  · rw [heq, confirmRows_doubt]
    exact mul_le_mul_of_nonneg_left (by linarith) hpow
  · rw [heq, ObserveCall.hits_eq_zero hp, pow_zero, one_mul]
    cases hs : seededRow cfg c.witness c.present c.ts k row with
    | none =>
        show 1 - max cfg.prior (confidenceOf row) ≤ 1 - 0
        linarith [le_max_left cfg.prior (confidenceOf row), hcfg.prior_nonneg]
    | some r =>
        rw [hs] at hseeded
        have hr := (decayRow_confidence hcfg c.ts (hseed r hs)).2
        have hle : max cfg.prior r.confidence ≤ max cfg.prior (confidenceOf row) :=
          max_le (le_max_left _ _) hseeded
        show 1 - _ ≤ 1 - (decayRow cfg c.ts r).confidence
        linarith
  · rw [heq, ObserveCall.hits_eq_zero hp, pow_zero, one_mul]
    linarith [le_max_right cfg.prior (confidenceOf row)]

/-- Without a miss, a call takes a fraction of the doubt per confirmation. -/
theorem rowAfter_doubt_le (hcfg : cfg.Bounded) (hmiss : ¬ c.Misses cfg k) :
    1 - confidenceOf (c.rowAfter cfg k row)
      ≤ (1 - cfg.alpha) ^ c.hits cfg k * (1 - confidenceOf row) := by
  have hseeded := (confidenceOf_seededRow hcfg c.witness c.present c.ts k row).1
  have hpow : 0 ≤ (1 - cfg.alpha) ^ c.hits cfg k := pow_nonneg (by linarith [hcfg.alpha_le]) _
  unfold ObserveCall.rowAfter
  rcases rowAfter_cases cfg c.graph.edges c.present c.witness c.ts k row with
    ⟨-, heq⟩ | ⟨hp, hl, -⟩ | ⟨hp, -, -, heq⟩
  · rw [heq, confirmRows_doubt]
    exact mul_le_mul_of_nonneg_left (by linarith) hpow
  · exact absurd ⟨ObserveCall.hits_eq_zero hp, hl⟩ hmiss
  · rw [heq, ObserveCall.hits_eq_zero hp, pow_zero, one_mul]

/-- **Downwards**: a call costs at most one decay, and none unless it misses the key. -/
theorem rowAfter_confidence_ge (hcfg : cfg.Bounded) (hinv : ∀ r, row = some r → RowInv cfg r) :
    confidenceOf row * (1 - cfg.decay) ^ (if c.Misses cfg k then 1 else 0)
      ≤ confidenceOf (c.rowAfter cfg k row) := by
  have hseed : ∀ r, seededRow cfg c.witness c.present c.ts k row = some r → SeededInv cfg r :=
    seededRow_inv hcfg hinv
  have hseeded := (confidenceOf_seededRow hcfg c.witness c.present c.ts k row).1
  by_cases hmiss : c.Misses cfg k
  · rw [if_pos hmiss, pow_one]
    have hp : ¬ Projects cfg c.graph.edges k := by
      intro hp
      exact absurd hmiss.1 (ObserveCall.confirms_iff.mp hp).ne'
    unfold ObserveCall.rowAfter
    rcases rowAfter_cases cfg c.graph.edges c.present c.witness c.ts k row with
      ⟨hp', -⟩ | ⟨-, -, heq⟩ | ⟨-, hl, -, -⟩
    · exact absurd hp' hp
    · rw [heq]
      cases hs : seededRow cfg c.witness c.present c.ts k row with
      | none =>
          rw [hs] at hseeded
          have hzero : confidenceOf row ≤ 0 := hseeded
          exact mul_nonpos_of_nonpos_of_nonneg hzero (by linarith [hcfg.decay_le])
      | some r =>
          rw [hs] at hseeded
          have hr := (decayRow_confidence hcfg c.ts (hseed r hs)).1
          exact (mul_le_mul_of_nonneg_right hseeded (by linarith [hcfg.decay_le])).trans hr
    · exact absurd hmiss.2 hl
  · rw [if_neg hmiss, pow_zero, mul_one]
    have hdoubt : 1 - confidenceOf (c.rowAfter cfg k row) ≤ _ := rowAfter_doubt_le hcfg hmiss
    have hconf : 0 ≤ 1 - confidenceOf row := by
      cases row with
      | none => exact sub_nonneg.mpr zero_le_one
      | some r => exact sub_nonneg.mpr (hinv r rfl).conf_le
    have hpow : (1 - cfg.alpha) ^ c.hits cfg k ≤ 1 :=
      pow_le_one₀ (by linarith [hcfg.alpha_le]) (by linarith [hcfg.alpha_pos])
    have := mul_le_of_le_one_left hconf hpow
    linarith

end Step

/-! ## Runs -/

section Run
variable {cfg : MemoryConfig} {sha1 : CaseKey → CaseId} {calls : List ObserveCall} {k : EdgeKey}
  {i j n : ℕ} {c : ObserveCall}

theorem hitsBetween_succ (hij : i ≤ j) (hc : calls[j]? = some c) :
    hitsBetween cfg calls k i (j + 1) = hitsBetween cfg calls k i j + c.hits cfg k := by
  unfold hitsBetween
  rw [between_succ hij hc, List.map_append, List.sum_append]
  simp

theorem missesBetween_succ (hij : i ≤ j) (hc : calls[j]? = some c) :
    missesBetween cfg calls k i (j + 1) = missesBetween cfg calls k i j + (if c.Misses cfg k then 1 else 0) := by
  unfold missesBetween
  rw [between_succ hij hc, List.countP_append]
  simp

/-- The confidence of a key after `n` calls, 0 when it has no row. -/
def trust (cfg : MemoryConfig) (sha1 : CaseKey → CaseId) (calls : List ObserveCall) (k : EdgeKey) (n : ℕ) : ℚ :=
  confidenceOf (rowAt cfg sha1 calls k n)

theorem trust_nonneg (hcfg : cfg.Bounded) : 0 ≤ trust cfg sha1 calls k n := by
  unfold trust
  cases hr : rowAt cfg sha1 calls k n with
  | none => exact le_rfl
  | some r => exact (rowAt_inv hcfg r hr).base_nonneg.trans (rowAt_inv hcfg r hr).base_le

/-- However the calls are mixed, the doubt left is at least what the confirmations leave of the prior's. -/
theorem trust_le_hits (hcfg : cfg.Bounded) (hn : n ≤ calls.length) :
    (1 - cfg.prior) * (1 - cfg.alpha) ^ hitsBetween cfg calls k 0 n ≤ 1 - trust cfg sha1 calls k n := by
  have hα : 0 ≤ 1 - cfg.alpha := by linarith [hcfg.alpha_le]
  have hα1 : 1 - cfg.alpha ≤ 1 := by linarith [hcfg.alpha_pos]
  have hprior : 0 ≤ 1 - cfg.prior := by linarith [hcfg.prior_le, hcfg.alpha_le]
  induction n with
  | zero =>
      have hzero : trust cfg sha1 calls k 0 = 0 := rfl
      rw [hitsBetween, between_self, hzero]
      simp [hcfg.prior_nonneg]
  | succ n ih =>
      have hc : calls[n]? = some calls[n] := List.getElem?_eq_getElem hn
      have hold := ih (Nat.le_of_succ_le hn)
      have hpow : 0 ≤ (1 - cfg.alpha) ^ calls[n].hits cfg k := pow_nonneg hα _
      have hdoubt : (1 - cfg.alpha) ^ calls[n].hits cfg k * (1 - max cfg.prior (trust cfg sha1 calls k n)) ≤ _ :=
        rowAfter_doubt_ge hcfg (rowAt_inv hcfg)
      -- the prior's own doubt is at least the bound as well
      have hmax : (1 - cfg.prior) * (1 - cfg.alpha) ^ hitsBetween cfg calls k 0 n
          ≤ 1 - max cfg.prior (trust cfg sha1 calls k n) := by
        have hown : (1 - cfg.prior) * (1 - cfg.alpha) ^ hitsBetween cfg calls k 0 n ≤ 1 - cfg.prior :=
          mul_le_of_le_one_right hprior (pow_le_one₀ hα hα1)
        rcases max_choice cfg.prior (trust cfg sha1 calls k n) with h | h
        · rw [h]; exact hown
        · rw [h]; exact hold
      have hrow : trust cfg sha1 calls k (n + 1)
          = confidenceOf (calls[n].rowAfter cfg k (rowAt cfg sha1 calls k n)) := by
        unfold trust; rw [rowAt_succ hc]
      rw [hitsBetween_succ n.zero_le hc, pow_add, hrow]
      calc (1 - cfg.prior) * ((1 - cfg.alpha) ^ hitsBetween cfg calls k 0 n
            * (1 - cfg.alpha) ^ calls[n].hits cfg k)
          = (1 - cfg.alpha) ^ calls[n].hits cfg k
              * ((1 - cfg.prior) * (1 - cfg.alpha) ^ hitsBetween cfg calls k 0 n) := by ring
        _ ≤ (1 - cfg.alpha) ^ calls[n].hits cfg k * (1 - max cfg.prior (trust cfg sha1 calls k n)) :=
            mul_le_mul_of_nonneg_left hmax hpow
        _ ≤ _ := hdoubt

theorem hitsBetween_mono (hij : i ≤ j) (hj : j ≤ calls.length) :
    hitsBetween cfg calls k 0 i ≤ hitsBetween cfg calls k 0 j := by
  induction j, hij using Nat.le_induction with
  | base => exact le_rfl
  | succ j _ ih =>
      rw [hitsBetween_succ j.zero_le (List.getElem?_eq_getElem hj)]
      exact (ih (Nat.le_of_succ_le hj)).trans (Nat.le_add_right _ _)

/-- **No edge appears early**: a visible row was confirmed often enough to take the prior's doubt down to
    that of `show`. -/
theorem visible_hits (hcfg : cfg.Bounded) (hn : n ≤ calls.length) (h : VisibleAt cfg sha1 calls k n) :
    (1 - cfg.prior) * (1 - cfg.alpha) ^ hitsBetween cfg calls k 0 n ≤ 1 - cfg.show' := by
  obtain ⟨i, hi, ⟨c, -, -, r, hr, hshow⟩, -⟩ := (visibleAt_iff hcfg hn).mp h
  have hbound : _ ≤ 1 - trust cfg sha1 calls k (i + 1) := trust_le_hits hcfg (hi.trans_le hn)
  have htrust : trust cfg sha1 calls k (i + 1) = r.confidence := by
    unfold trust; rw [hr]; rfl
  have hpow : (1 - cfg.alpha) ^ hitsBetween cfg calls k 0 n ≤ (1 - cfg.alpha) ^ hitsBetween cfg calls k 0 (i + 1) :=
    pow_le_pow_of_le_one (by linarith [hcfg.alpha_le]) (by linarith [hcfg.alpha_pos]) (hitsBetween_mono hi hn)
  have hprior : 0 ≤ 1 - cfg.prior := by linarith [hcfg.prior_le, hcfg.alpha_le]
  calc (1 - cfg.prior) * (1 - cfg.alpha) ^ hitsBetween cfg calls k 0 n
      ≤ (1 - cfg.prior) * (1 - cfg.alpha) ^ hitsBetween cfg calls k 0 (i + 1) :=
        mul_le_mul_of_nonneg_left hpow hprior
    _ ≤ 1 - trust cfg sha1 calls k (i + 1) := hbound
    _ ≤ 1 - cfg.show' := by rw [htrust]; linarith

/-- Without misses, the doubt left is at most what the confirmations leave. -/
theorem trust_ge_hits (hcfg : cfg.Bounded) (hij : i ≤ j) (hj : j ≤ calls.length)
    (hmiss : missesBetween cfg calls k i j = 0) :
    1 - trust cfg sha1 calls k j ≤ (1 - cfg.alpha) ^ hitsBetween cfg calls k i j := by
  induction j, hij using Nat.le_induction with
  | base =>
      rw [hitsBetween, between_self]
      simpa using trust_nonneg hcfg
  | succ j hij ih =>
      have hc : calls[j]? = some calls[j] := List.getElem?_eq_getElem hj
      rw [missesBetween_succ hij hc, Nat.add_eq_zero_iff] at hmiss
      have hnot : ¬ calls[j].Misses cfg k := by
        intro h
        rw [if_pos h] at hmiss
        exact absurd hmiss.2 one_ne_zero
      have hrow : trust cfg sha1 calls k (j + 1)
          = confidenceOf (calls[j].rowAfter cfg k (rowAt cfg sha1 calls k j)) := by
        unfold trust; rw [rowAt_succ hc]
      rw [hitsBetween_succ hij hc, pow_add, hrow, mul_comm]
      refine (rowAfter_doubt_le hcfg hnot).trans ?_
      exact mul_le_mul_of_nonneg_left (ih (Nat.le_of_succ_le hj) hmiss.1)
        (pow_nonneg (by linarith [hcfg.alpha_le]) _)

/-- **An edge appears in time**: confirmed often enough since some call, and not missed in between, it is
    visible. -/
theorem visible_of_hits (hcfg : cfg.Bounded) (hij : i ≤ j) (hj : j ≤ calls.length)
    (hmiss : missesBetween cfg calls k i j = 0) (hpos : 0 < hitsBetween cfg calls k i j)
    (hhits : (1 - cfg.alpha) ^ hitsBetween cfg calls k i j ≤ 1 - cfg.show') : VisibleAt cfg sha1 calls k j := by
  induction j, hij using Nat.le_induction with
  | base =>
      rw [hitsBetween, between_self] at hpos
      exact absurd hpos (lt_irrefl 0)
  | succ j hij ih =>
      have hc : calls[j]? = some calls[j] := List.getElem?_eq_getElem hj
      by_cases hconf : calls[j].Confirms cfg k
      · -- the last confirmation brings the confidence to `show`
        obtain ⟨r, hr⟩ : ∃ r, calls[j].rowAfter cfg k (rowAt cfg sha1 calls k j) = some r :=
          rowAfter_isSome (Or.inr (Or.inr hconf))
        rw [← rowAt_succ hc] at hr
        have htrust : trust cfg sha1 calls k (j + 1) = r.confidence := by
          unfold trust; rw [hr]; rfl
        have hdoubt : 1 - trust cfg sha1 calls k (j + 1) ≤ _ := trust_ge_hits hcfg (hij.trans j.le_succ) hj hmiss
        have hshow : cfg.show' ≤ r.confidence := by
          rw [← htrust]
          linarith [hdoubt.trans hhits]
        rw [visibleAt_succ hcfg hj]
        exact ⟨Or.inr ⟨calls[j], hc, hconf, r, hr, hshow⟩, r, hr, hcfg.hide_le.trans hshow⟩
      · have hzero : calls[j].hits cfg k = 0 := ObserveCall.hits_eq_zero hconf
        rw [missesBetween_succ hij hc, Nat.add_eq_zero_iff] at hmiss
        rw [hitsBetween_succ hij hc, hzero, Nat.add_zero] at hpos hhits
        have hvis := ih (Nat.le_of_succ_le hj) hmiss.1 hpos hhits
        -- neither confirmed nor missed: one of the workloads is gone, and the row is held
        have hdead : ¬ LiveKey cfg calls[j].present k := by
          intro hl
          have hmissed : calls[j].Misses cfg k := ⟨hzero, hl⟩
          rw [if_pos hmissed] at hmiss
          exact absurd hmiss.2 one_ne_zero
        have hsame : rowAt cfg sha1 calls k (j + 1) = rowAt cfg sha1 calls k j := by
          rw [rowAt_succ hc]
          unfold ObserveCall.rowAfter
          rcases rowAfter_cases cfg calls[j].graph.edges calls[j].present calls[j].witness calls[j].ts k
              (rowAt cfg sha1 calls k j) with ⟨hp, -⟩ | ⟨-, hl, -⟩ | ⟨-, -, -, heq⟩
          · exact absurd hp hconf
          · exact absurd hl hdead
          · exact heq
        unfold VisibleAt
        rw [hsame]
        exact hvis

/-- Confidence falls by one decay per miss at most. -/
theorem trust_ge_misses (hcfg : cfg.Bounded) (hij : i ≤ j) (hj : j ≤ calls.length) :
    trust cfg sha1 calls k i * (1 - cfg.decay) ^ missesBetween cfg calls k i j ≤ trust cfg sha1 calls k j := by
  induction j, hij using Nat.le_induction with
  | base =>
      rw [missesBetween, between_self]
      simp
  | succ j hij ih =>
      have hc : calls[j]? = some calls[j] := List.getElem?_eq_getElem hj
      have hrow : trust cfg sha1 calls k (j + 1)
          = confidenceOf (calls[j].rowAfter cfg k (rowAt cfg sha1 calls k j)) := by
        unfold trust; rw [rowAt_succ hc]
      have hstep : trust cfg sha1 calls k j * (1 - cfg.decay) ^ (if calls[j].Misses cfg k then 1 else 0)
          ≤ trust cfg sha1 calls k (j + 1) := hrow ▸ rowAfter_confidence_ge hcfg (rowAt_inv hcfg)
      rw [missesBetween_succ hij hc, pow_add, ← mul_assoc]
      refine le_trans ?_ hstep
      exact mul_le_mul_of_nonneg_right (ih (Nat.le_of_succ_le hj)) (pow_nonneg (by linarith [hcfg.decay_le]) _)

/-- **An edge stays**: shown once, it is visible until it was missed often enough to decay from `show` to
    below `hide`. -/
theorem visible_of_misses (hcfg : cfg.Bounded) (hij : i < j) (hj : j ≤ calls.length)
    (hshown : ShownAt cfg sha1 calls k i)
    (hhide : cfg.hide ≤ cfg.show' * (1 - cfg.decay) ^ missesBetween cfg calls k (i + 1) j) :
    VisibleAt cfg sha1 calls k j := by
  have ⟨c, _, _, r, hr, hshow⟩ := hshown
  have htrust : cfg.show' ≤ trust cfg sha1 calls k (i + 1) := by
    unfold trust; rw [hr]; exact hshow
  have hd : 0 ≤ 1 - cfg.decay := by linarith [hcfg.decay_le]
  have habove : ∀ n, i < n → n ≤ calls.length →
      cfg.hide ≤ cfg.show' * (1 - cfg.decay) ^ missesBetween cfg calls k (i + 1) n →
      cfg.hide ≤ trust cfg sha1 calls k n := by
    intro n hin hn hle
    exact (hle.trans (mul_le_mul_of_nonneg_right htrust (pow_nonneg hd _))).trans (trust_ge_misses hcfg hin hn)
  induction j, hij using Nat.le_induction with
  | base =>
      rw [visibleAt_succ hcfg hj]
      exact ⟨Or.inr hshown, r, hr, hcfg.hide_le.trans hshow⟩
  | succ j hij ih =>
      have hc : calls[j]? = some calls[j] := List.getElem?_eq_getElem hj
      have hshow0 : 0 ≤ cfg.show' := hcfg.hide_nonneg.trans hcfg.hide_le
      have hearlier : cfg.hide ≤ cfg.show' * (1 - cfg.decay) ^ missesBetween cfg calls k (i + 1) j := by
        refine hhide.trans (mul_le_mul_of_nonneg_left ?_ hshow0)
        refine pow_le_pow_of_le_one hd (by linarith [hcfg.decay_nonneg]) ?_
        rw [missesBetween_succ hij hc]
        exact Nat.le_add_right _ _
      have hvis := ih (Nat.le_of_succ_le hj) hearlier
      have hsome : rowAt cfg sha1 calls k j ≠ none := by
        intro hnone
        unfold VisibleAt at hvis
        rw [hnone] at hvis
        exact absurd hvis (by simp [visibleOf])
      obtain ⟨r', hr'⟩ : ∃ r, calls[j].rowAfter cfg k (rowAt cfg sha1 calls k j) = some r :=
        rowAfter_isSome (Or.inl hsome)
      rw [← rowAt_succ hc] at hr'
      have hconf : trust cfg sha1 calls k (j + 1) = r'.confidence := by
        unfold trust; rw [hr']; rfl
      rw [visibleAt_succ hcfg hj]
      exact ⟨Or.inl hvis, r', hr', hconf ▸ habove (j + 1) (hij.trans j.le_succ) hj hhide⟩

/-- **An edge is debounced both ways.** Over every run of calls from an empty database, whatever their graphs,
    live pods and witnesses: a visible row was confirmed often enough, in all calls so far, to bring the
    doubt of the prior down to that of `show`; a row confirmed often enough since some call without a miss is
    visible; and a row shown by some call stays visible until the misses since then can have decayed `show` to
    below `hide`. -/
theorem edge_debounced (cfg : MemoryConfig) (hcfg : cfg.Bounded) (sha1 : CaseKey → CaseId)
    (calls : List ObserveCall) (k : EdgeKey) (j : ℕ) (hj : j ≤ calls.length) :
    (VisibleAt cfg sha1 calls k j →
      (1 - cfg.prior) * (1 - cfg.alpha) ^ hitsBetween cfg calls k 0 j ≤ 1 - cfg.show') ∧
    (∀ i ≤ j, missesBetween cfg calls k i j = 0 → 0 < hitsBetween cfg calls k i j →
      (1 - cfg.alpha) ^ hitsBetween cfg calls k i j ≤ 1 - cfg.show' → VisibleAt cfg sha1 calls k j) ∧
    (∀ i < j, ShownAt cfg sha1 calls k i →
      cfg.hide ≤ cfg.show' * (1 - cfg.decay) ^ missesBetween cfg calls k (i + 1) j →
      VisibleAt cfg sha1 calls k j) := by
  refine ⟨fun h => visible_hits hcfg hj h, ?_, ?_⟩
  · intro i hij hmiss hpos hhits
    exact visible_of_hits hcfg hij hj hmiss hpos hhits
  · intro i hij hshown hhide
    exact visible_of_misses hcfg hij hj hshown hhide

end Run

theorem edge_debounced_storm :
    let cfg := MemoryConfig.default
    let k := ("log-archiver", "timescaledb", cfg.signal)
    (1 - cfg.prior) * (1 - cfg.alpha) ^ hitsBetween cfg stormCalls k 0 4 ≤ 1 - cfg.show' ∧
      VisibleAt cfg (fun _ => 0) stormCalls k 3 := by
  intro cfg k
  have hvis : VisibleAt cfg (fun _ => 0) stormCalls k 4 := by
    unfold VisibleAt
    decide +kernel
  refine ⟨(edge_debounced cfg default_bounded (fun _ => 0) stormCalls k 4 (by decide)).1 hvis, ?_⟩
  exact (edge_debounced cfg default_bounded (fun _ => 0) stormCalls k 3 (by decide)).2.1 1 (by decide)
    (by decide +kernel) (by decide +kernel) (by decide +kernel)

end EdgeCausal
