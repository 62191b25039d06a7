import EdgeCausal.Correctness.Admission
import EdgeCausal.Correctness.ForwardImpact
import EdgeCausal.Engine.Numeric

/-!
# `Correctness.Isolation` — what an isolated pod can and cannot change

A pod coupled to nobody is an end of no edge. It can still steer the pass: it supplies the event centre when
nothing is coupled, it is what makes the pass disturbed when nothing else is anomalous, and, through the
shape of the maps it is in, it decides where the slice starts and whether the edges are deduplicated. While
it does none of these (`Bystander`), removing it changes nothing that is served (`runPass_without`).
-/

namespace EdgeCausal

open Lib

/-- The pod shares no resource with another pod. -/
def Isolated (w : Witness) (p : Pod) : Prop := ∀ q, q ≠ p → w.couples p q = false ∧ w.couplesSource p q = false

/-- The arguments without a pod. -/
def PassArgs.without (args : PassArgs) (p : Pod) : PassArgs :=
  { args with
    vectors := args.vectors.erase p
    writeVectors := args.writeVectors.map (·.erase p)
    baselines := args.baselines.map (·.erase p) }

/-- The strongest onset of a pod. -/
def peakOnset (raw : Dict Pod (List Onset)) (p : Pod) : Option Onset :=
  firstMax (fun o => |o.zpeak|) ((raw.get? p).getD [])

/-- Its strength. -/
def strength (raw : Dict Pod (List Onset)) (p : Pod) : ℚ := ((peakOnset raw p).map fun o => |o.zpeak|).getD 0

/-- The anomalous pod with the strongest onset, the first one on a tie. -/
def strongestPod (raw : Dict Pod (List Onset)) : Option Pod := firstMax (strength raw) raw.keys

/-- **The pod steers nothing**: the event centre is not taken from it, the slice starts where it would start
    without it, and it is not the only source. -/
structure Bystander (args : PassArgs) (p : Pod) : Prop where
  centre : coupledPods args.witness args.raw.keys ≠ [] ∨ strongestPod args.raw ≠ some p
  slice : args.window.getD 0 = 0 ∨
    ∀ v ∈ (args.vectors.erase p).values.head?, v.length = (args.vectors.values.headD []).length
  sources : args.writes.entries = [] ∨ (args.writes.erase p).entries ≠ []

variable {est : Estimators} {args : PassArgs} {w : Witness} {p : Pod}

/-! ## An isolated pod is an end of no edge -/

/-- A pod that no relation but co-pressure lists is isolated. -/
theorem isolated_of_unlisted (h : ∀ ab ∈ w.ebpfEdges ++ w.sharedRelation ++ w.sameNode, ab.1 ≠ p ∧ ab.2 ≠ p) :
    Isolated w p := by
  have hrel : ∀ rel, rel ⊆ w.ebpfEdges ++ w.sharedRelation ++ w.sameNode → ∀ q, relates rel p q = false := by
    intro rel hsub q
    unfold relates
    rw [decide_eq_false_iff_not]
    rintro (hpq | hqp)
    · exact (h (p, q) (hsub hpq)).1 rfl
    · exact (h (q, p) (hsub hqp)).2 rfl
  intro q _
  constructor
  · rw [Bool.eq_false_iff, ne_eq, Witness.couples_iff, hrel _ (by simp), hrel _ (by simp)]
    simp
  · rw [Bool.eq_false_iff, ne_eq, Witness.couplesSource_iff, hrel _ (by simp), hrel _ (by simp),
      hrel _ (by simp)]
    simp

namespace Isolated
variable (h : Isolated w p)
include h

theorem couples_eq_false {a b : Pod} (hne : a ≠ b) (hp : a = p ∨ b = p) : w.couples a b = false := by
  rcases hp with rfl | rfl
  · exact (h b hne.symm).1
  · rw [Witness.couples_comm]
    exact (h a hne).1

theorem couplesSource_eq_false {a b : Pod} (hne : a ≠ b) (hp : a = p ∨ b = p) :
    w.couplesSource a b = false := by
  rcases hp with rfl | rfl
  · exact (h b hne.symm).2
  · rw [Witness.couplesSource_comm]
    exact (h a hne).2

end Isolated

theorem Isolated.not_end (h : Isolated args.witness p) {e : Edge} (he : e ∈ passEdges est args) :
    e.src ≠ p ∧ e.dst ≠ p := by
  have hend : ¬ (e.src = p ∨ e.dst = p) := by
    intro hp
    rcases passEdges_spec he with hb | hs
    · exact absurd hb.coupled (by rw [h.couples_eq_false hb.ne hp]; simp)
    · exact absurd hs.coupled (by rw [h.couplesSource_eq_false hs.ne hp]; simp)
  exact not_or.mp hend

/-! ## The event centre -/

theorem peakOnset_of_mem {q : Pod} (h : q ∈ args.raw.keys) : ∃ o, peakOnset args.raw q = some o := by
  obtain ⟨ons, hons⟩ := Dict.mem_keys_iff_get?.mp h
  obtain ⟨-, -, -, hne, -⟩ := raw_spec hons
  unfold peakOnset
  rw [hons]
  cases hmax : firstMax (fun o : Onset => |o.zpeak|) ((some ons).getD []) with
  | none => exact absurd (firstMax_eq_none_iff.mp hmax) hne
  | some o => exact ⟨o, rfl⟩

/-- The centre loop keeps the strongest onset of the first strongest pod. -/
theorem foldl_centreStep {raw : Dict Pod (List Onset)} {l : List Pod}
    (h : ∀ q ∈ l, ∃ o, peakOnset raw q = some o) :
    l.foldl (centreStep raw) (-1, none) = match firstMax (strength raw) l with
      | none => (-1, none)
      | some q => (strength raw q, (peakOnset raw q).map Onset.idx) := by
  induction l using List.reverseRecOn with
  | nil => rfl
  | append_singleton l y ih =>
      obtain ⟨o, ho⟩ := h y (by simp)
      have hy : strength raw y = |o.zpeak| := by unfold strength; rw [ho]; rfl
      rw [List.foldl_append, ih (fun q hq => h q (List.mem_append_left _ hq)), firstMax_concat]
      show centreStep raw _ y = _
      unfold centreStep
      rw [show firstMax (fun o : Onset => |o.zpeak|) ((raw.get? y).getD []) = some o from ho]
      cases hl : firstMax (strength raw) l with
      | none =>
          -- any onset is stronger than none
          unfold better
          dsimp only
          rw [if_pos (lt_of_lt_of_le (by norm_num) (abs_nonneg _)), hy, ho]
          rfl
      | some b =>
          unfold better
          dsimp only
          rw [← hy]
          split
          · rw [ho]; rfl
          · rfl

theorem raw_without : (args.without p).raw = args.raw.erase p := by
  unfold PassArgs.raw rawOnsets
  refine Dict.filterMap_erase ?_ args.vectors
  intro q vec hq
  have hdev : deviates (args.without p).baselines args.recent q vec =
      deviates args.baselines args.recent q vec := by
    unfold PassArgs.without deviates
    cases args.baselines with
    | none => rfl
    | some b =>
        dsimp only [Option.map_some]
        rw [Dict.get?_erase_of_ne hq]
  show (if strongOnsets vec = [] then none
    else if deviates (args.without p).baselines args.recent q vec then some (strongOnsets vec) else none) = _
  rw [hdev]

/-- Who is coupled does not depend on an isolated pod. -/
theorem coupledPods_filter (h : Isolated w p) (l : List Pod) :
    coupledPods w (l.filter (· ≠ p)) = coupledPods w l := by
  unfold coupledPods
  rw [List.filter_filter]
  refine List.filter_congr fun x _ => ?_
  rw [List.any_filter]
  by_cases hx : x = p
  · -- the pod itself is coupled to nobody
    have hnone : (l.any fun q => q ≠ x ∧ w.couples x q) = false := by
      rw [List.any_eq_false]
      intro q _ hq
      obtain ⟨hne, hc⟩ := of_decide_eq_true hq
      exact absurd hc (by rw [h.couples_eq_false hne.symm (Or.inl hx)]; simp)
    rw [hnone, decide_eq_false (not_not_intro hx)]
    simp
  · rw [decide_eq_true hx, Bool.and_true]
    refine List.any_congr rfl fun q => ?_
    by_cases hq : q = p
    · -- and nobody is coupled to it
      rw [decide_eq_false (not_not_intro hq), Bool.false_and, eq_comm, decide_eq_false_iff_not]
      rintro ⟨hne, hc⟩
      exact absurd hc (by rw [h.couples_eq_false hne.symm (Or.inr hq)]; simp)
    · rw [decide_eq_true hq, Bool.true_and]

/-- The centre is the same while it is not taken from the pod. -/
theorem centre_without (h : Isolated args.witness p)
    (hc : coupledPods args.witness args.raw.keys ≠ [] ∨ strongestPod args.raw ≠ some p) :
    (args.without p).centre = args.centre := by
  have hkeys : (args.without p).raw.keys = args.raw.keys.filter (· ≠ p) := by
    rw [raw_without, Dict.keys_erase]
  have hcoupled : coupledPods args.witness (args.without p).raw.keys =
      coupledPods args.witness args.raw.keys := by
    rw [hkeys, coupledPods_filter h]
  -- one pod of the loop is the same step on either side
  have hstep : ∀ l : List Pod, p ∉ l → ∀ b, l.foldl (centreStep (args.without p).raw) b =
      l.foldl (centreStep args.raw) b := by
    intro l hl b
    refine List.foldl_ext _ _ b fun best q hq => ?_
    have hne : q ≠ p := fun hqp => hl (hqp ▸ hq)
    unfold centreStep
    rw [raw_without, Dict.get?_erase_of_ne hne]
  show (((if coupledPods args.witness (args.without p).raw.keys = [] then (args.without p).raw.keys
      else coupledPods args.witness (args.without p).raw.keys).foldl
        (centreStep (args.without p).raw) (-1, none)).2) = (((if coupledPods args.witness args.raw.keys = []
      then args.raw.keys else coupledPods args.witness args.raw.keys).foldl (centreStep args.raw) (-1, none)).2)
  rw [hcoupled]
  by_cases hnil : coupledPods args.witness args.raw.keys = []
  · rw [if_pos hnil, if_pos hnil, hkeys, hstep _ (by simp)]
    rw [foldl_centreStep fun q hq => peakOnset_of_mem hq,
      foldl_centreStep fun q hq => peakOnset_of_mem (List.mem_of_mem_filter hq)]
    cases hmax : firstMax (strength args.raw) args.raw.keys with
    | none => rw [firstMax_eq_none_iff.mp hmax]; rfl
    | some q =>
        have hq : q ≠ p := by
          rintro rfl
          exact (hc.resolve_left (not_not_intro hnil)) hmax
        rw [firstMax_filter _ hmax (by simpa using hq)]
  · rw [if_neg hnil, if_neg hnil, hstep]
    rw [← coupledPods_filter h]
    intro hp
    have hmem := List.mem_of_mem_filter hp
    simp at hmem

/-! ## The data of the pass without the pod -/

theorem writes_without : (args.without p).writes = args.writes.erase p := by
  unfold PassArgs.writes PassArgs.without
  cases args.writeVectors with
  | none => rfl
  | some d => rfl

theorem applySlice_erase (b : Option (ℕ × ℕ)) (d : Dict Pod Series) :
    applySlice b (d.erase p) = (applySlice b d).erase p := by
  cases b with
  | none => rfl
  | some lw =>
      obtain ⟨lo, win⟩ := lw
      exact Dict.mapVals_erase d (fun _ v => slice lo win v) p

section Data
variable (hc : (args.without p).centre = args.centre)
include hc

theorem findings_without : (args.without p).findings = args.findings.erase p := by
  unfold PassArgs.findings
  rw [hc, raw_without]
  refine Dict.filterMap_erase ?_ args.raw
  intro q ons hq
  have hmk : mkFinding (args.without p) q ons = mkFinding args q ons := by
    funext ev
    unfold mkFinding PassArgs.without
    dsimp only
    rw [Dict.get?_erase_of_ne hq]
  rw [hmk]

theorem active_without : (args.without p).active = args.active.filter (· ≠ p) := by
  unfold PassArgs.active
  rw [findings_without hc, Dict.keys_erase]

theorem onsetS_without : (args.without p).onsetS = args.onsetS.erase p := by
  unfold PassArgs.onsetS
  rw [hc, raw_without]
  exact Dict.filterMap_erase (fun _ _ _ => rfl) args.raw

theorem writeOnsetS_without : (args.without p).writeOnsetS = args.writeOnsetS.erase p := by
  unfold PassArgs.writeOnsetS
  rw [hc, writes_without]
  exact Dict.filterMap_erase (fun _ _ _ => rfl) args.writes

/-- The slice is the same while the vector that measures it has the same length. -/
theorem bounds_without (hne : (args.without p).vectors.entries ≠ [])
    (hslice : args.window.getD 0 = 0 ∨
      ∀ v ∈ (args.vectors.erase p).values.head?, v.length = (args.vectors.values.headD []).length) :
    (args.without p).bounds = args.bounds := by
  unfold PassArgs.bounds
  rw [hc]
  show sliceBounds args.window args.centre (args.vectors.erase p) =
    sliceBounds args.window args.centre args.vectors
  have hlen : args.window.getD 0 = 0 ∨
      ((args.vectors.erase p).values.headD []).length = (args.vectors.values.headD []).length := by
    refine hslice.imp_right fun h => ?_
    cases hv : (args.vectors.erase p).values with
    | nil => exact absurd (List.map_eq_nil_iff.mp hv) hne
    | cons v vs => exact h v (by rw [hv]; rfl)
  unfold sliceBounds
  cases hw : args.window with
  | none => rfl
  | some win =>
      cases args.centre with
      | none => rfl
      | some c =>
          dsimp only
          rw [hw] at hlen
          rcases hlen with hzero | hlen
          · have hwin : win = 0 := hzero
            rw [if_pos hwin, if_pos hwin]
          · rw [hlen]

end Data

/-! ## The two loops -/

/-- What admits a bare edge reads the onsets of its two pods only. -/
theorem acceptEdge_congr {src dst : Pod} {r : ℚ} {lagS : ℕ} {profile : Dict ℕ ℚ} {onsetS onsetS' : Dict Pod ℚ}
    (hs : onsetS'.get? src = onsetS.get? src) (hd : onsetS'.get? dst = onsetS.get? dst) :
    acceptEdge src dst r lagS profile w onsetS' = acceptEdge src dst r lagS profile w onsetS := by
  unfold acceptEdge
  rw [hs, hd]

/-- A pair without the pod gives the same bare edge, while the pass is as disturbed as before. -/
theorem psiEdge_erase {active : List Pod} (hdist : active.filter (· ≠ p) ≠ [] ↔ active ≠ [])
    {onsetS : Dict Pod ℚ}
    {cvec : Dict Pod Series} {ab : Pod × Pod} (ha : ab.1 ≠ p) (hb : ab.2 ≠ p) :
    psiEdge est w (active.filter (· ≠ p)) (onsetS.erase p) (cvec.erase p) ab
      = psiEdge est w active onsetS cvec ab := by
  have hmem : ∀ q, q ≠ p → (q ∈ active.filter (· ≠ p) ↔ q ∈ active) := by
    intro q hq
    rw [List.mem_filter, decide_eq_true hq]
    simp
  unfold psiEdge
  dsimp only
  rw [Dict.get?_erase_of_ne ha, Dict.get?_erase_of_ne hb]
  simp only [hmem ab.1 ha, hmem ab.2 hb, hdist]
  split
  · rfl
  · split
    · rfl
    · -- both ends of the edge are ends of the pair
      refine acceptEdge_congr (Dict.get?_erase_of_ne ?_) (Dict.get?_erase_of_ne ?_)
      · split
        · exact ha
        · exact hb
      · split
        · exact hb
        · exact ha

theorem psiEdges_erase (h : Isolated w p) {active : List Pod}
    (hdist : active.filter (· ≠ p) ≠ [] ↔ active ≠ []) (onsetS : Dict Pod ℚ) (vectors cvec : Dict Pod Series) :
    psiEdges est w (active.filter (· ≠ p)) (onsetS.erase p) (vectors.erase p) (cvec.erase p)
      = psiEdges est w active onsetS vectors cvec := by
  have hpairs : podPairs (vectors.erase p) = (podPairs vectors).filter fun ab => ab.1 ≠ p ∧ ab.2 ≠ p := by
    unfold podPairs
    rw [Dict.keys_erase, sortOn_id_filter, pairs_filter]
    refine List.filter_congr fun ab _ => ?_
    rw [Bool.decide_and]
  unfold psiEdges
  rw [hpairs]
  refine filterMap_kept ?_ ?_
  · intro ab _ hkeep
    obtain ⟨ha, hb⟩ := of_decide_eq_true hkeep
    exact psiEdge_erase hdist ha hb
  · intro ab hab hdrop
    have hend : ab.1 = p ∨ ab.2 = p := by
      have hp := of_decide_eq_false hdrop
      rw [not_and_or, not_not, not_not] at hp
      exact hp
    unfold psiEdge
    rw [if_pos (h.couples_eq_false (podPairs_spec hab).1 hend)]

/-- A writer and a victim other than the pod give the same source edge. -/
theorem sourceEdge_erase {active : List Pod} {onsetS writeOnsetS : Dict Pod ℚ}
    {cvec writeCvec : Dict Pod Series}
    {q v : Pod} (hq : q ≠ p) (hv : v ≠ p) :
    sourceEdge est w (active.filter (· ≠ p)) (onsetS.erase p) (writeOnsetS.erase p) (cvec.erase p)
        (writeCvec.erase p) q v
      = sourceEdge est w active onsetS writeOnsetS cvec writeCvec q v := by
  have hstorm : q ∈ (writeOnsetS.erase p).keys ↔ q ∈ writeOnsetS.keys := by
    rw [Dict.mem_keys_erase]
    exact and_iff_left hq
  have hactive : v ∈ active.filter (· ≠ p) ↔ v ∈ active := by
    rw [List.mem_filter, decide_eq_true hv]
    simp
  unfold sourceEdge
  simp only [Dict.get?_erase_of_ne hq, Dict.get?_erase_of_ne hv, hstorm, hactive]

theorem sourceEdges_erase (h : Isolated w p) (active : List Pod) (onsetS writeOnsetS : Dict Pod ℚ)
    (cvec writeCvec : Dict Pod Series) :
    sourceEdges est w (active.filter (· ≠ p)) (onsetS.erase p) (writeOnsetS.erase p) (cvec.erase p)
        (writeCvec.erase p)
      = sourceEdges est w active onsetS writeOnsetS cvec writeCvec := by
  have hnone : ∀ q v, q = p ∨ v = p → sourceEdge est w active onsetS writeOnsetS cvec writeCvec q v = none := by
    intro q v hp
    unfold sourceEdge
    dsimp only
    split
    · rfl
    · rw [if_pos]
      by_cases hvq : v = q
      · exact Or.inl hvq
      · exact Or.inr (h.couplesSource_eq_false (Ne.symm hvq) hp)
  unfold sourceEdges
  rw [Dict.keys_erase, Dict.keys_erase, sortOn_id_filter, sortOn_id_filter]
  -- dropping the pod as a writer, then as a victim of every other writer
  refine flatMap_kept ?_ ?_
  · intro q _ hq
    refine filterMap_kept ?_ ?_
    · intro v _ hv
      exact sourceEdge_erase (of_decide_eq_true hq) (of_decide_eq_true hv)
    · intro v _ hv
      exact hnone q v (Or.inr (not_not.mp (of_decide_eq_false hv)))
  · intro q _ hq
    rw [List.filterMap_eq_nil_iff]
    intro v _
    exact hnone q v (Or.inl (not_not.mp (of_decide_eq_false hq)))

/-! ## The edges -/

namespace Bystander
variable (h : Bystander args p) (hiso : Isolated args.witness p)
include h hiso

/-- Something else is anomalous when anything is. -/
theorem disturbed : args.active.filter (· ≠ p) ≠ [] ↔ args.active ≠ [] := by
  constructor
  · intro hne hnil
    rw [hnil] at hne
    exact hne rfl
  · intro hne
    suffices hother : ∃ q ∈ args.raw.keys, q ≠ p by
      obtain ⟨q, hq, hqp⟩ := hother
      have hactive := mem_active_iff_raw.mpr (Dict.mem_keys_iff_get?.mp hq)
      exact List.ne_nil_of_mem (List.mem_filter.mpr ⟨hactive, by simpa using hqp⟩)
    rcases h.centre with hcoupled | hstrongest
    · -- a coupled pod is not the isolated one
      obtain ⟨x, hx⟩ := List.exists_mem_of_ne_nil _ hcoupled
      obtain ⟨hmem, hany⟩ := List.mem_filter.mp hx
      obtain ⟨q, hq, hdec⟩ := List.any_eq_true.mp hany
      obtain ⟨hqx, hc⟩ := of_decide_eq_true hdec
      refine ⟨x, hmem, ?_⟩
      rintro rfl
      exact absurd hc (by rw [hiso.couples_eq_false hqx.symm (Or.inl rfl)]; simp)
    · cases hmax : strongestPod args.raw with
      | some q => exact ⟨q, firstMax_mem hmax, fun hqp => hstrongest (hqp ▸ hmax)⟩
      | none =>
          obtain ⟨q, hq⟩ := List.exists_mem_of_ne_nil _ hne
          have hraw := Dict.mem_keys_iff_get?.mpr (mem_active_iff_raw.mp hq)
          rw [firstMax_eq_none_iff.mp hmax] at hraw
          exact absurd hraw (by simp)

/-- **The edges without the pod are the edges with it.** -/
theorem passEdges_without (est : Estimators) : passEdges est (args.without p) = passEdges est args := by
  have hc := centre_without hiso h.centre
  have hdist := h.disturbed hiso
  by_cases hnil : (args.without p).vectors.entries = []
  · -- nothing else has a vector, so nothing is anomalous on either side
    have hactive : (args.without p).active = [] := by
      rw [List.eq_nil_iff_forall_not_mem]
      intro q hq
      obtain ⟨ons, hons⟩ := mem_active_iff_raw.mp hq
      obtain ⟨vec, hvec, -⟩ := raw_spec hons
      have hmem := Dict.get?_eq_some_iff.mp hvec
      rw [hnil] at hmem
      exact absurd hmem (by simp)
    rw [passEdges_eq_nil hactive, passEdges_eq_nil]
    rw [active_without hc] at hactive
    by_contra hne
    exact hdist.mpr hne hactive
  · have hb := bounds_without hc hnil h.slice
    have hcvec : (args.without p).cvec = args.cvec.erase p := by
      unfold PassArgs.cvec
      rw [hb]
      exact applySlice_erase args.bounds args.vectors
    have hwcvec : (args.without p).writeCvec = args.writeCvec.erase p := by
      unfold PassArgs.writeCvec
      rw [hb, writes_without]
      exact applySlice_erase args.bounds args.writes
    have hwrites : (args.without p).writes.entries = [] ↔ args.writes.entries = [] := by
      rw [writes_without]
      rcases h.sources with hw | hw
      · have herase : (args.writes.erase p).entries = [] := by
          show args.writes.entries.filter (fun e => e.1 ≠ p) = []
          rw [hw]; rfl
        exact iff_of_true herase hw
      · refine iff_of_false hw fun hempty => hw ?_
        show args.writes.entries.filter (fun e => e.1 ≠ p) = []
        rw [hempty]; rfl
    have hpsi : psiEdges est (args.without p).witness (args.without p).active (args.without p).onsetS
          (args.without p).vectors (args.without p).cvec
        = psiEdges est args.witness args.active args.onsetS args.vectors args.cvec := by
      rw [active_without hc, onsetS_without hc, hcvec]
      exact psiEdges_erase hiso hdist args.onsetS args.vectors args.cvec
    have hsource : sourceEdges est (args.without p).witness (args.without p).active (args.without p).onsetS
          (args.without p).writeOnsetS (args.without p).cvec (args.without p).writeCvec
        = sourceEdges est args.witness args.active args.onsetS args.writeOnsetS args.cvec args.writeCvec := by
      rw [active_without hc, onsetS_without hc, writeOnsetS_without hc, hcvec, hwcvec]
      exact sourceEdges_erase hiso args.active args.onsetS args.writeOnsetS args.cvec args.writeCvec
    unfold passEdges
    simp only [hwrites, hpsi, hsource]

end Bystander

/-! ## The ranking -/

/-- A ranking reads the seeds and the onsets of the pods on the graph only. -/
theorem rankRootCauses_congr {g : CGraph} {seeds seeds' : List Pod} {onsetS onsetS' : Dict Pod ℚ} (top : ℕ)
    (hseeds : seedSet g seeds' = seedSet g seeds) (honset : ∀ n ∈ g.nodes, onsetS'.get? n = onsetS.get? n) :
    rankRootCauses g seeds' onsetS' top = rankRootCauses g seeds onsetS top := by
  -- only pods of the graph are scored
  have hnode : ∀ kv ∈ scores g (seedSet g seeds), kv.1 ∈ g.nodes := by
    intro kv hkv
    obtain ⟨n, hn, rfl⟩ := List.mem_map.mp (List.mem_of_mem_filter hkv)
    exact hn
  have hranked : ranked g seeds' onsetS' = ranked g seeds onsetS := by
    unfold ranked
    rw [hseeds]
    refine sortOn_congr fun kv hkv => ?_
    unfold rankKey
    rw [honset kv.1 (hnode kv hkv)]
  unfold rankRootCauses
  rw [hranked, hseeds]
  split
  · rfl
  · refine List.map_congr_left fun kv hkv => ?_
    have hscore : kv ∈ scores g (seedSet g seeds) := mem_sortOn.mp (List.mem_of_mem_take hkv)
    rw [honset kv.1 (hnode kv hscore)]

/-- The seeds of the ranking without the pod, on a graph that it is not on. -/
theorem seedSet_without (hc : (args.without p).centre = args.centre) {g : CGraph} (hp : p ∉ g.nodes) :
    seedSet g (args.without p).seeds = seedSet g args.seeds := by
  have hactive : (sortOn id (args.without p).active).filter (· ∈ g.nodes)
      = (sortOn id args.active).filter (· ∈ g.nodes) := by
    rw [active_without hc, sortOn_id_filter, List.filter_filter]
    refine List.filter_congr fun n _ => ?_
    by_cases hn : n ∈ g.nodes
    · have hne : n ≠ p := fun hnp => hp (hnp ▸ hn)
      rw [decide_eq_true hne, Bool.and_true]
    · rw [decide_eq_false hn, Bool.false_and]
  have hseeds : (args.without p).seeds.filter (· ∈ g.nodes) = args.seeds.filter (· ∈ g.nodes) := by
    unfold PassArgs.seeds
    have hbreach : (args.without p).sloBreach = args.sloBreach := rfl
    rw [hbreach]
    cases args.sloBreach with
    | none => exact hactive
    | some breach =>
        cases breach with
        | nil => exact hactive
        | cons q qs => rfl
  unfold seedSet
  rw [hseeds]

/-- What a pass serves about its incident. -/
def SameIncident (g g' : CausalGraph) : Prop :=
  g.edges = g'.edges ∧ g.rootCauseRanking = g'.rootCauseRanking ∧ g.blastRadius = g'.blastRadius

instance (g g' : CausalGraph) : Decidable (SameIncident g g') := by
  unfold SameIncident; infer_instance

/-- **Non-interference.** A pod that is coupled to nobody and steers nothing can be removed, however noisy it
    is: the edges, the ranking and the blast radius are the same. -/
theorem runPass_without (est : Estimators) (args : PassArgs) (p : Pod) (hiso : Isolated args.witness p)
    (h : Bystander args p) : SameIncident (runPass est (args.without p)) (runPass est args) := by
  have hc := centre_without hiso h.centre
  have hedges := h.passEdges_without hiso est
  have hoff : p ∉ (buildGraph (passEdges est args)).nodes := by
    intro hp
    obtain ⟨e, he, hend⟩ := mem_nodes_buildGraph.mp hp
    obtain ⟨hs, hd⟩ := hiso.not_end he
    exact hend.elim hs hd
  have hrank : (runPass est (args.without p)).rootCauseRanking = (runPass est args).rootCauseRanking := by
    show rankRootCauses (buildGraph (passEdges est (args.without p))) _ _ topCauses =
      rankRootCauses _ _ _ topCauses
    rw [hedges]
    refine rankRootCauses_congr topCauses (seedSet_without hc hoff) ?_
    intro n hn
    have hne : n ≠ p := fun hnp => hoff (hnp ▸ hn)
    rw [onsetS_without hc, Dict.get?_erase_of_ne hne]
  refine ⟨hedges, hrank, ?_⟩
  show blastOfTop (buildGraph (passEdges est (args.without p))) (runPass est (args.without p)).rootCauseRanking
    = blastOfTop (buildGraph (passEdges est args)) (runPass est args).rootCauseRanking
  rw [hedges, hrank]

/-! ### A noisy edge service -/

/-- Flat for `k` samples, then uneven between `height` and `height + 2` up to `n` samples. -/
def stepSeries (n k : ℕ) (height : ℚ) : Series :=
  (List.range n).map fun i => if i < k then 0 else height + (i % 3 : ℕ)

/-- Two storage pods stall together from sample 32 on, and an uncoupled service has a stronger burst before. -/
def noisyArgs (timescaledb : Option ℚ) : PassArgs where
  vectors := Dict.ofList [("log-archiver-6d-x1", stepSeries 40 32 5), ("timescaledb-0-y2", stepSeries 40 32 5),
    ("edge-ui-5b-w4", (stepSeries 40 15 500).zipWith (· - ·) (stepSeries 40 21 500))]
  witness := ⟨[], [], [("log-archiver-6d-x1", "timescaledb-0-y2")], []⟩
  sloBreach := none
  caps := ∅
  window := some 16
  writeVectors := none
  baselines := some (Dict.ofList
    [("log-archiver-6d-x1", some 1), ("timescaledb-0-y2", timescaledb), ("edge-ui-5b-w4", some 1)])
  recent := none

/-- With both storage pods anomalous the service is the strongest and steers nothing. -/
theorem runPass_without_noisy :
    SameIncident (runPass numericEstimators ((noisyArgs (some 1)).without "edge-ui-5b-w4"))
      (runPass numericEstimators (noisyArgs (some 1))) :=
  runPass_without numericEstimators (noisyArgs (some 1)) "edge-ui-5b-w4"
    (isolated_of_unlisted (by decide +kernel))
    ⟨Or.inl (by decide +kernel), Or.inr (by decide +kernel), Or.inl (by decide +kernel)⟩

/-- Two storage pods rise together, with immature baselines; only the service is anomalous. -/
def disturbedArgs : PassArgs where
  vectors := Dict.ofList [("log-archiver-6d-x1", (List.range 26).map fun i => (i : ℚ)),
    ("timescaledb-0-y2", (List.range 26).map fun i => (i : ℚ)), ("edge-ui-5b-w4", stepSeries 26 20 50)]
  witness := ⟨[], [], [("log-archiver-6d-x1", "timescaledb-0-y2")], []⟩
  sloBreach := none
  caps := ∅
  window := none
  writeVectors := none
  baselines := some (Dict.ofList [("edge-ui-5b-w4", some 1)])
  recent := none

/-- The service is listed first and has half the samples of the others. -/
def shortVectorArgs : PassArgs :=
  { noisyArgs (some 1) with
    vectors := Dict.ofList [("edge-ui-5b-w4", List.replicate 20 0), ("log-archiver-6d-x1", stepSeries 40 32 5),
      ("timescaledb-0-y2", stepSeries 40 32 5)] }

/-- A bump of height 6 at sample `k`. -/
def bumpSeries (k : ℕ) : Series := (List.range 26).map fun (i : ℕ) => max 0 (6 - |(i : ℚ) - k|)

/-- Two pairs of storage pods one sample apart; the service is the only source. -/
def onlySourceArgs : PassArgs where
  vectors := Dict.ofList [("collector-7f-z3", bumpSeries 14), ("cooling-monitor-5d-u7", bumpSeries 13),
    ("log-archiver-6d-x1", bumpSeries 14), ("timescaledb-0-y2", bumpSeries 13),
    ("web-3c-v8", stepSeries 26 20 50)]
  witness := ⟨[], [], [("collector-7f-z3", "timescaledb-0-y2"),
    ("cooling-monitor-5d-u7", "log-archiver-6d-x1")], []⟩
  sloBreach := none
  caps := ∅
  window := none
  writeVectors := some (Dict.ofList [("edge-ui-5b-w4", List.replicate 26 0)])
  baselines := some (Dict.ofList [("web-3c-v8", some 1)])
  recent := none

/-- Removing the service, which is coupled to nobody, changes what is served. -/
def Interferes (args : PassArgs) : Prop :=
  Isolated args.witness "edge-ui-5b-w4" ∧
    ¬ SameIncident (runPass numericEstimators (args.without "edge-ui-5b-w4")) (runPass numericEstimators args)

/-- The four ways in which an isolated pod changes what is served: it alone disturbs the pass, the centre
    falls back on it, its vector measures the slice, and it is the only source. -/
theorem isolatedPod_interferes :
    Interferes disturbedArgs ∧ Interferes (noisyArgs none) ∧ Interferes shortVectorArgs ∧
      Interferes onlySourceArgs := by
  refine ⟨⟨isolated_of_unlisted ?_, ?_⟩, ⟨isolated_of_unlisted ?_, ?_⟩, ⟨isolated_of_unlisted ?_, ?_⟩,
    ⟨isolated_of_unlisted ?_, ?_⟩⟩ <;> decide +kernel

end EdgeCausal
