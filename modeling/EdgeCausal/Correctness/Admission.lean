import EdgeCausal.Engine.Pipeline

/-!
# `Correctness.Admission` — what an admitted edge guarantees

One specification lemma for each function between the candidates and the edges of a pass: the lag profile,
the adjacent-lag test, the three-clause gate, the writer gate and the two edge loops. The soundness of the
pass (`GateSound`) and every later argument about its edges cite these and unfold nothing below them.
-/

namespace EdgeCausal

open Lib

variable {est : Estimators} {args : PassArgs} {e : Edge}

/-! ## Findings and onsets -/

/-- What makes a pod anomalous: strong onsets, and a level that deviates from its baseline. -/
theorem raw_spec {p : Pod} {ons : List Onset} (h : args.raw.get? p = some ons) :
    ∃ vec, args.vectors.get? p = some vec ∧ ons = strongOnsets vec ∧ ons ≠ [] ∧
      deviates args.baselines args.recent p vec = true := by
  unfold PassArgs.raw rawOnsets at h
  rw [Dict.get?_filterMap] at h
  obtain ⟨vec, hvec, h⟩ := Option.bind_eq_some_iff.mp h
  dsimp only at h
  split at h
  · exact absurd h (by simp)
  · rename_i hstrong
    split at h
    · rename_i hdev
      obtain rfl := Option.some.inj h
      exact ⟨vec, hvec, rfl, hstrong, hdev⟩
    · exact absurd h (by simp)

theorem exists_eventOnset (centre : Option ℕ) {ons : List Onset} (h : ons ≠ []) :
    ∃ ev, eventOnset centre ons = some ev := by
  rw [← Option.ne_none_iff_exists']
  intro hnone
  unfold eventOnset at hnone
  split at hnone
  · exact h (firstMin_eq_none_iff.mp hnone)
  · exact h (List.head?_eq_none_iff.mp hnone)

/-- The findings are the anomalous pods. -/
theorem mem_active_iff_raw {p : Pod} : p ∈ args.active ↔ ∃ ons, args.raw.get? p = some ons := by
  unfold PassArgs.active PassArgs.findings passFindings
  rw [Dict.mem_keys_iff_get?]
  simp only [Dict.get?_filterMap]
  constructor
  · rintro ⟨f, hf⟩
    obtain ⟨ons, hons, -⟩ := Option.bind_eq_some_iff.mp hf
    exact ⟨ons, hons⟩
  · rintro ⟨ons, hons⟩
    obtain ⟨-, -, -, hne, -⟩ := raw_spec hons
    obtain ⟨ev, hev⟩ := exists_eventOnset args.centre hne
    refine ⟨mkFinding args p ons ev, ?_⟩
    rw [hons, Option.bind_some, hev]
    rfl

/-- A finding is stored under its own pod. -/
theorem finding_pod {p : Pod} {f : Finding} (h : args.findings.get? p = some f) : f.pod = p := by
  unfold PassArgs.findings passFindings at h
  rw [Dict.get?_filterMap, Option.bind_eq_some_iff] at h
  obtain ⟨ons, -, h⟩ := h
  obtain ⟨ev, -, rfl⟩ := Option.map_eq_some_iff.mp h
  rfl

/-- The onset map is the onset column of the findings. -/
theorem onsetS_get? (p : Pod) : args.onsetS.get? p = (args.findings.get? p).map Finding.onsetS := by
  unfold PassArgs.onsetS onsetTimes PassArgs.findings passFindings
  rw [Dict.get?_filterMap, Dict.get?_filterMap]
  cases args.raw.get? p with
  | none => rfl
  | some ons =>
      simp only [Option.bind_some]
      cases eventOnset args.centre ons <;> rfl

theorem mem_active_iff {p : Pod} : p ∈ args.active ↔ ∃ t, args.onsetS.get? p = some t := by
  unfold PassArgs.active
  rw [Dict.mem_keys_iff_get?]
  simp only [onsetS_get?, Option.map_eq_some_iff]
  constructor
  · rintro ⟨f, hf⟩
    exact ⟨_, f, hf, rfl⟩
  · rintro ⟨-, f, hf, -⟩
    exact ⟨f, hf⟩

theorem mem_runPass_findings {f : Finding} :
    f ∈ (runPass est args).findings ↔ args.findings.get? f.pod = some f := by
  show f ∈ sortOn _ args.findings.values ↔ _
  rw [mem_sortOn, Dict.mem_values_iff_get?]
  constructor
  · rintro ⟨p, hp⟩
    rw [finding_pod hp]; exact hp
  · exact fun h => ⟨f.pod, h⟩

/-- An active pod's onset is the onset of its finding. -/
theorem finding_of_onset (est : Estimators) {p : Pod} {t : ℚ} (h : args.onsetS.get? p = some t) :
    ∃ f ∈ (runPass est args).findings, f.pod = p ∧ f.onsetS = t := by
  rw [onsetS_get?] at h
  obtain ⟨f, hf, rfl⟩ := Option.map_eq_some_iff.mp h
  have hpod := finding_pod hf
  exact ⟨f, mem_runPass_findings.mpr (hpod ▸ hf), hpod, rfl⟩

theorem onset_of_finding {f : Finding} (h : f ∈ (runPass est args).findings) :
    args.onsetS.get? f.pod = some f.onsetS := by
  rw [onsetS_get?, mem_runPass_findings.mp h]; rfl

theorem findings_eq_nil_iff : (runPass est args).findings = [] ↔ args.active = [] := by
  have hlen : (runPass est args).findings.length = args.active.length := by
    show (sortOn _ args.findings.values).length = _
    rw [(sortOn_perm _ _).length_eq]
    simp [PassArgs.active, Dict.values, Dict.keys]
  rw [← List.length_eq_zero_iff, ← List.length_eq_zero_iff, hlen]

/-! ## Lag profiles -/

/-- `l'` is evaluated next to `l`: both are in the profile and no evaluated lag lies between them. -/
def AdjacentLag (p : Dict ℕ ℚ) (l l' : ℕ) : Prop :=
  l ∈ p.keys ∧ l' ∈ p.keys ∧ l ≠ l' ∧ ∀ m ∈ p.keys, ¬ (min l l' < m ∧ m < max l l')

/-- The profile is `r` at lag `l`, and at least `floor` in absolute value at an adjacent lag. -/
structure Supported (p : Dict ℕ ℚ) (l : ℕ) (r floor : ℚ) : Prop where
  peak : p.get? l = some r
  adjacent : ∃ l' r', AdjacentLag p l l' ∧ p.get? l' = some r' ∧ floor ≤ |r'|

/-- Only configured lags are evaluated. -/
theorem lagProfile_keys {src dst : Series} : ∀ l ∈ (lagProfile est src dst).keys, l ∈ lagsS := by
  unfold lagProfile
  refine List.foldlRecOn (motive := fun d : Dict ℕ ℚ => ∀ l ∈ d.keys, l ∈ lagsS) lagsS _
    (by simp) ?_
  intro d hd lag hlag
  dsimp only
  split
  · exact hd
  · intro l hl
    rcases Dict.mem_keys_set.mp hl with rfl | hl
    · exact hlag
    · exact hd l hl

/-- In a strictly ascending list, consecutive positions have nothing between them. -/
theorem no_mem_between {l : List ℕ} (hl : l.Pairwise (· < ·)) {i : ℕ} {a b m : ℕ}
    (ha : l[i]? = some a) (hb : l[i + 1]? = some b) (hm : m ∈ l) : ¬ (a < m ∧ m < b) := by
  obtain ⟨j, hj⟩ := List.mem_iff_getElem?.mp hm
  rintro ⟨h1, h2⟩
  have hlt := List.pairwise_iff_getElem.mp hl
  obtain ⟨hi, rfl⟩ := List.getElem?_eq_some_iff.mp ha
  obtain ⟨hi', rfl⟩ := List.getElem?_eq_some_iff.mp hb
  obtain ⟨hj', rfl⟩ := List.getElem?_eq_some_iff.mp hj
  rcases lt_trichotomy j i with h | h | h
  · exact absurd (hlt j i hj' hi h) (by omega)
  · subst h; omega
  · rcases lt_or_eq_of_le (Nat.succ_le_of_lt h) with h' | h'
    · exact absurd (hlt (i + 1) j hi' hj' h') (by omega)
    · obtain rfl : i + 1 = j := h'
      omega

/-- The lags of a profile in ascending order, strictly. -/
theorem sorted_keys_lt (p : Dict ℕ ℚ) : (sortOn id p.keys).Pairwise (· < ·) := by
  have hle := sortOn_pairwise id p.keys
  have hnd : (sortOn id p.keys).Nodup := (sortOn_perm id p.keys).nodup_iff.mpr p.keys_nodup
  refine (hle.and hnd).imp ?_
  rintro a b ⟨h, hne⟩
  exact lt_of_le_of_ne h hne

/-- **The adjacent-lag test, declaratively.** -/
theorem adjacentSupport_spec {p : Dict ℕ ℚ} {l : ℕ} {floor : ℚ} (h : adjacentSupport p l floor = true) :
    l ∈ p.keys ∧ ∃ l' r', AdjacentLag p l l' ∧ p.get? l' = some r' ∧ floor ≤ |r'| := by
  unfold adjacentSupport at h
  have hlt := sorted_keys_lt p
  simp only at h
  split at h
  · rename_i hmem
    obtain ⟨n, hn, hfloor⟩ := List.any_eq_true.mp h
    have hidx : (sortOn id p.keys)[(sortOn id p.keys).idxOf l]? = some l := by
      rw [List.getElem?_eq_getElem (List.idxOf_lt_length_of_mem hmem), List.getElem_idxOf]
    set lags := sortOn id p.keys with hlags
    set i := lags.idxOf l
    have hkey : ∀ {m : ℕ}, m ∈ lags ↔ m ∈ p.keys := fun {m} => mem_sortOn
    -- the neighbour is at the position before or after the peak
    have hadj : AdjacentLag p l n := by
      rw [List.mem_append, Option.mem_toList, Option.mem_toList] at hn
      rcases hn with hn | hn
      · split at hn
        · simp at hn
        · rename_i hi
          have hsucc : i - 1 + 1 = i := Nat.succ_pred_eq_of_pos (Nat.pos_of_ne_zero hi)
          have hnl : n < l := by
            obtain ⟨hb, rfl⟩ := List.getElem?_eq_some_iff.mp hn
            obtain ⟨hb', hl'⟩ := List.getElem?_eq_some_iff.mp hidx
            rw [← hl']
            exact List.pairwise_iff_getElem.mp hlt _ _ hb hb' (by omega)
          refine ⟨hkey.mp hmem, hkey.mp (List.mem_of_getElem? hn), by omega, ?_⟩
          intro m hm
          rw [min_eq_right hnl.le, max_eq_left hnl.le]
          exact no_mem_between hlt hn (hsucc.symm ▸ hidx) (hkey.mpr hm)
      · have hln : l < n := by
          obtain ⟨hb, rfl⟩ := List.getElem?_eq_some_iff.mp hn
          obtain ⟨hb', hl'⟩ := List.getElem?_eq_some_iff.mp hidx
          conv_lhs => rw [← hl']
          exact List.pairwise_iff_getElem.mp hlt _ _ hb' hb (by omega)
        refine ⟨hkey.mp hmem, hkey.mp (List.mem_of_getElem? hn), by omega, ?_⟩
        intro m hm
        rw [min_eq_left hln.le, max_eq_right hln.le]
        exact no_mem_between hlt hidx hn (hkey.mpr hm)
    refine ⟨hkey.mp hmem, n, (p.get? n).getD 0, hadj, ?_, by simpa using hfloor⟩
    obtain ⟨r', hr'⟩ := Dict.mem_keys_iff_get?.mp hadj.2.1
    simp [hr']
  · exact absurd h (by simp)

/-- Elements of a strictly ascending list with nothing between them are consecutive. -/
theorem idxOf_succ {l : List ℕ} (hl : l.Pairwise (· < ·)) {a b : ℕ} (ha : a ∈ l) (hb : b ∈ l) (hab : a < b)
    (hbetween : ∀ m ∈ l, ¬ (a < m ∧ m < b)) : l.idxOf b = l.idxOf a + 1 := by
  have hlt := List.pairwise_iff_getElem.mp hl
  have hia := List.idxOf_lt_length_of_mem ha
  have hib := List.idxOf_lt_length_of_mem hb
  have hga : l[l.idxOf a] = a := List.getElem_idxOf hia
  have hgb : l[l.idxOf b] = b := List.getElem_idxOf hib
  rcases lt_trichotomy (l.idxOf b) (l.idxOf a + 1) with h | h | h
  · rcases (Nat.lt_succ_iff.mp h).eq_or_lt with heq | hbefore
    · simp only [heq, hga] at hgb
      omega
    · have := hlt _ _ hib hia hbefore
      omega
  · exact h
  · -- the element after `a` would lie between
    have hnext : l.idxOf a + 1 < l.length := by omega
    refine absurd ⟨?_, ?_⟩ (hbetween l[l.idxOf a + 1] (List.getElem_mem hnext))
    · conv_lhs => rw [← hga]
      exact hlt _ _ hia hnext (by omega)
    · conv_rhs => rw [← hgb]
      exact hlt _ _ hnext hib h

/-- Support at an adjacent lag is found. -/
theorem adjacentSupport_of_adjacent {p : Dict ℕ ℚ} {l l' : ℕ} {r' floor : ℚ} (hadj : AdjacentLag p l l')
    (hr' : p.get? l' = some r') (hfloor : floor ≤ |r'|) : adjacentSupport p l floor = true := by
  obtain ⟨hl, hl', hne, hbetween⟩ := hadj
  have hlt := sorted_keys_lt p
  have hkey : ∀ {m : ℕ}, m ∈ sortOn id p.keys ↔ m ∈ p.keys := fun {m} => mem_sortOn
  have hgap : ∀ m ∈ sortOn id p.keys, ¬ (min l l' < m ∧ m < max l l') := fun m hm => hbetween m (hkey.mp hm)
  have hget : (sortOn id p.keys)[(sortOn id p.keys).idxOf l']? = some l' := by
    rw [List.getElem?_eq_getElem (List.idxOf_lt_length_of_mem (hkey.mpr hl')), List.getElem_idxOf]
  unfold adjacentSupport
  dsimp only
  rw [if_pos (hkey.mpr hl), List.any_eq_true]
  refine ⟨l', ?_, by rw [hr']; simpa using hfloor⟩
  rw [List.mem_append, Option.mem_toList, Option.mem_toList]
  rcases lt_or_gt_of_ne hne with hlt' | hgt
  · rw [min_eq_left hlt'.le, max_eq_right hlt'.le] at hgap
    rw [idxOf_succ hlt (hkey.mpr hl) (hkey.mpr hl') hlt' hgap] at hget
    exact Or.inr hget
  · rw [min_eq_right hgt.le, max_eq_left hgt.le] at hgap
    refine Or.inl ?_
    rw [idxOf_succ hlt (hkey.mpr hl') (hkey.mpr hl) hgt hgap, if_neg (Nat.succ_ne_zero _), Nat.add_sub_cancel]
    exact hget

/-! ## The two gates -/

/-- The profile `bestDirected` evaluates for the direction `src → dst`: both vectors cut to their common
    length, most recent samples kept. -/
def directedProfile (est : Estimators) (src dst : Series) : Dict ℕ ℚ :=
  let n := min src.length dst.length
  lagProfile est (alignTail n src) (alignTail n dst)

theorem profilePeak_spec (p : Dict ℕ ℚ) :
    p.get? (profilePeak p).1 = some (profilePeak p).2 ∨ (profilePeak p).2 = 0 := by
  unfold profilePeak
  cases hmax : firstMax (fun kv : ℕ × ℚ => |kv.2|) p.entries with
  | none => exact Or.inr rfl
  | some kv => exact Or.inl (Dict.get?_eq_some_iff.mpr (firstMax_mem hmax))

/-- The chosen direction comes with its own profile and the peak of it. -/
theorem bestDirected_spec (est : Estimators) (a b : Series) :
    let d := bestDirected est a b
    d.profile = (if d.forward then directedProfile est a b else directedProfile est b a) ∧
    (d.lagS, d.r) = profilePeak d.profile := by
  unfold bestDirected directedProfile
  rw [min_comm b.length a.length]
  dsimp only
  split <;> exact ⟨rfl, rfl⟩

/-- **The three-clause gate**: what an accepted edge says of its arguments. -/
theorem acceptEdge_spec {src dst : Pod} {r : ℚ} {lagS : ℕ} {profile : Dict ℕ ℚ} {w : Witness}
    {onsetS : Dict Pod ℚ} (h : acceptEdge src dst r lagS profile w onsetS = some e) :
    rPeak ≤ r ∧ adjacentSupport profile lagS rAdj = true ∧ w.couples src dst = true ∧
    temporalOk (onsetS.get? src) (onsetS.get? dst) lagS = true ∧
    e = ⟨src, dst, roundAt 3 r, lagS,
      [.stat] ++ w.kinds src dst ++ temporalTag (onsetS.get? src) (onsetS.get? dst)⟩ := by
  unfold acceptEdge at h
  split at h
  · exact absurd h (by simp)
  · rename_i hstat
    rw [not_or, not_lt, Bool.not_eq_false] at hstat
    dsimp only at h
    split at h
    · exact absurd h (by simp)
    · rename_i hcoup
      split at h
      · exact absurd h (by simp)
      · rename_i htemp
        exact ⟨hstat.1, hstat.2, by simpa [Witness.couples] using hcoup, by simpa using htemp,
          (Option.some.inj h).symm⟩

/-- The three clauses are all that the gate asks. -/
theorem acceptEdge_of_clauses {src dst : Pod} {r : ℚ} {lagS : ℕ} {profile : Dict ℕ ℚ} {w : Witness}
    {onsetS : Dict Pod ℚ} (hr : rPeak ≤ r) (hadj : adjacentSupport profile lagS rAdj = true)
    (hcoup : w.couples src dst = true) (htemp : temporalOk (onsetS.get? src) (onsetS.get? dst) lagS = true) :
    acceptEdge src dst r lagS profile w onsetS = some ⟨src, dst, roundAt 3 r, lagS,
      [.stat] ++ w.kinds src dst ++ temporalTag (onsetS.get? src) (onsetS.get? dst)⟩ := by
  unfold Witness.couples at hcoup
  unfold acceptEdge
  rw [if_neg (by simp [hr, hadj])]
  simp [hcoup, htemp]

/-- The gate lets no source start later than its target, beyond the tolerance. -/
theorem temporalOk_le {ts td : ℚ} {lagS : ℕ} (h : temporalOk (some ts) (some td) lagS = true) :
    ts ≤ td + temporalTolS := by
  unfold temporalOk at h
  by_contra hgt
  rw [not_le] at hgt
  simp [hgt] at h

theorem write_not_mem_accept {w : Witness} {src dst : Pod} {ts td : Option ℚ} :
    Evidence.write ∉ [Evidence.stat] ++ w.kinds src dst ++ temporalTag ts td := by
  simp only [List.mem_append, Witness.mem_kinds, temporalTag]
  split <;> simp

/-- **The writer gate**, once both onsets are known. -/
theorem writerEdge_spec {src dst : Pod} {wsrc vdst : Series} {w : Witness} {tw tv : ℚ}
    (h : writerEdge est src dst wsrc vdst w (some tw) (some tv) = some e) :
    tw ≤ tv + temporalTolS ∧ w.couplesSource src dst = true ∧
    ∃ lag r, rSrc ≤ r ∧ (lagProfile est wsrc vdst).get? lag = some r ∧
      adjacentSupport (lagProfile est wsrc vdst) lag rAdj = true ∧
      e = ⟨src, dst, roundAt 3 r, lag,
        [.write] ++ (w.kinds src dst).filter (· ∈ sourceCouplingKinds) ++ [.temporal]⟩ := by
  unfold writerEdge at h
  dsimp only at h
  split at h
  · exact absurd h (by simp)
  · rename_i hkinds
    -- what is left of `kinds` witnesses a shared resource
    have hcoup : w.couplesSource src dst = true := by
      obtain ⟨k, hk⟩ := List.exists_mem_of_ne_nil _ hkinds
      obtain ⟨hk, hs⟩ := List.mem_filter.mp hk
      exact List.any_eq_true.mpr ⟨k, hk, hs⟩
    split at h
    · exact absurd h (by simp)
    · rename_i lag r hmax
      split at h
      · exact absurd h (by simp)
      · rename_i hstat
        rw [not_or, not_lt, Bool.not_eq_false] at hstat
        split at h
        · exact absurd h (by simp)
        · rename_i hlate
          exact ⟨not_lt.mp hlate, hcoup, lag, r, hstat.1,
            Dict.get?_eq_some_iff.mpr (firstMax_mem hmax), hstat.2, (Option.some.inj h).symm⟩

/-! ## The two edge loops -/

/-- A bare correlation edge of a pass. -/
structure BareEdge (est : Estimators) (args : PassArgs) (e : Edge) : Prop where
  ne : e.src ≠ e.dst
  live : e.src ∈ args.vectors.keys ∧ e.dst ∈ args.vectors.keys
  disturbed : args.active ≠ []
  peak : ∃ r, rPeak ≤ r ∧ e.r = roundAt 3 r ∧
    Supported (directedProfile est ((args.cvec.get? e.src).getD []) ((args.cvec.get? e.dst).getD []))
      e.lagS r rAdj
  coupled : args.witness.couples e.src e.dst = true
  ordered : ∀ ts td, args.onsetS.get? e.src = some ts → args.onsetS.get? e.dst = some td →
    ts ≤ td + temporalTolS
  evidence : e.evidence = [.stat] ++ args.witness.kinds e.src e.dst ++
    temporalTag (args.onsetS.get? e.src) (args.onsetS.get? e.dst)

/-- Peak source activity of a pod in the analysed slice, 0 without a source vector. -/
def PassArgs.writeAct (args : PassArgs) (p : Pod) : ℚ := ((args.writeCvec.get? p).map peakAct).getD 0

/-- A source edge of a pass. -/
structure SourceEdge (est : Estimators) (args : PassArgs) (e : Edge) : Prop where
  ne : e.src ≠ e.dst
  victim : e.dst ∈ args.active
  stormed : ∃ tw tv, args.writeOnsetS.get? e.src = some tw ∧ args.onsetS.get? e.dst = some tv ∧
    tw ≤ tv + temporalTolS
  dominant : args.writeAct e.dst < args.writeAct e.src
  peak : ∃ r, rSrc ≤ r ∧ e.r = roundAt 3 r ∧
    Supported (lagProfile est ((args.writeCvec.get? e.src).getD []) ((args.cvec.get? e.dst).getD []))
      e.lagS r rAdj
  coupled : args.witness.couplesSource e.src e.dst = true
  evidence : e.evidence = [.write] ++
    (args.witness.kinds e.src e.dst).filter (· ∈ sourceCouplingKinds) ++ [.temporal]

/-- The pairs a pass compares join two different pods of the vectors. -/
theorem podPairs_spec {vectors : Dict Pod Series} {a b : Pod} (h : (a, b) ∈ podPairs vectors) :
    a ≠ b ∧ a ∈ vectors.keys ∧ b ∈ vectors.keys := by
  have hnd : (sortOn id vectors.keys).Nodup :=
    (sortOn_perm id vectors.keys).nodup_iff.mpr vectors.keys_nodup
  have hmem := mem_of_mem_pairs h
  rw [mem_sortOn, mem_sortOn] at hmem
  exact ⟨rel_of_mem_pairs hnd h, hmem⟩

theorem psiEdges_spec
    (h : e ∈ psiEdges est args.witness args.active args.onsetS args.vectors args.cvec) :
    BareEdge est args e := by
  obtain ⟨⟨a, b⟩, hab, h⟩ := List.mem_filterMap.mp h
  obtain ⟨hne, ha, hb⟩ := podPairs_spec hab
  unfold psiEdge at h
  dsimp only at h
  split at h
  · exact absurd h (by simp)
  · rename_i hcoup
    split at h
    · exact absurd h (by simp)
    · rename_i hact
      have hdist : args.active ≠ [] := by
        intro hnil
        exact hact ⟨by rw [hnil]; simp, by rw [hnil]; simp, fun hd => hd hnil⟩
      obtain ⟨hprof, hpeak⟩ := bestDirected_spec est
        ((args.cvec.get? a).getD []) ((args.cvec.get? b).getD [])
      set d := bestDirected est ((args.cvec.get? a).getD []) ((args.cvec.get? b).getD [])
      obtain ⟨hr, hadj, hc, ht, rfl⟩ := acceptEdge_spec h
      obtain ⟨hlag, hsupp⟩ := adjacentSupport_spec hadj
      have hlagS : d.lagS = (profilePeak d.profile).1 := congrArg Prod.fst hpeak
      have hrr : d.r = (profilePeak d.profile).2 := congrArg Prod.snd hpeak
      -- the peak is a real entry of the profile: an empty profile has `r = 0`, below the floor
      have hget : d.profile.get? d.lagS = some d.r := by
        rcases profilePeak_spec d.profile with hp | hp
        · rw [hlagS, hrr]; exact hp
        · rw [← hrr] at hp
          rw [hp, rPeak] at hr
          norm_num at hr
      refine ⟨?_, ?_, hdist, ⟨d.r, hr, rfl, ?_⟩, hc, ?_, rfl⟩
      · cases d.forward
        · exact hne.symm
        · exact hne
      · cases d.forward
        · exact ⟨hb, ha⟩
        · exact ⟨ha, hb⟩
      · have hdir : d.profile = directedProfile est
            ((args.cvec.get? (if d.forward then a else b)).getD [])
            ((args.cvec.get? (if d.forward then b else a)).getD []) := by
          rw [hprof]; cases d.forward <;> rfl
        rw [← hdir]
        exact ⟨hget, hsupp⟩
      · intro ts td hts htd
        rw [hts, htd] at ht
        exact temporalOk_le ht

theorem sourceEdges_spec
    (h : e ∈ sourceEdges est args.witness args.active args.onsetS args.writeOnsetS args.cvec
      args.writeCvec) : SourceEdge est args e := by
  obtain ⟨p, -, h⟩ := List.mem_flatMap.mp h
  obtain ⟨v, -, h⟩ := List.mem_filterMap.mp h
  unfold sourceEdge at h
  dsimp only at h
  split at h
  · exact absurd h (by simp)
  · rename_i honset
    rw [not_not] at honset
    split at h
    · exact absurd h (by simp)
    · rename_i hpair
      split at h
      · exact absurd h (by simp)
      · rename_i hvictim
        split at h
        · exact absurd h (by simp)
        · rename_i hact
          -- the writer has stormed and the victim is a finding, so both onsets are known
          rw [not_not] at hvictim
          obtain ⟨tw, htw⟩ := Dict.mem_keys_iff_get?.mp honset
          obtain ⟨tv, htv⟩ := mem_active_iff.mp hvictim
          rw [htw, htv] at h
          obtain ⟨hle, hcoup, lag, r, hr, hget, hadj, rfl⟩ := writerEdge_spec h
          exact ⟨fun heq => hpair (Or.inl heq.symm), hvictim, ⟨tw, tv, htw, htv, hle⟩,
            not_le.mp hact, ⟨r, hr, rfl, hget, (adjacentSupport_spec hadj).2⟩, hcoup, rfl⟩

/-! ## Deduplication -/

/-- The dedup loop files every candidate under its own pair and invents none. -/
theorem foldl_chooseEdge_spec (edges : List Edge) :
    let chosen := edges.foldl chooseEdge ∅
    ∀ k e, chosen.get? k = some e → k = frozenPair e.src e.dst ∧ e ∈ edges := by
  refine List.foldlRecOn (motive := fun chosen : Dict (Pod × Pod) Edge =>
    ∀ k e, chosen.get? k = some e → k = frozenPair e.src e.dst ∧ e ∈ edges) edges _ (by simp) ?_
  intro chosen ih c hc k e hk
  -- a candidate that is filed is filed under its own pair
  have hset : (chosen.set (frozenPair c.src c.dst) c).get? k = some e →
      k = frozenPair e.src e.dst ∧ e ∈ edges := by
    rw [Dict.get?_set]
    split
    · rename_i hkc
      intro h
      obtain rfl := Option.some.inj h
      exact ⟨hkc, hc⟩
    · exact ih k e
  unfold chooseEdge at hk
  dsimp only at hk
  split at hk
  · exact hset hk
  · split at hk
    · exact hset hk
    · exact ih k e hk

theorem mem_dedupEdges {edges : List Edge} (h : e ∈ dedupEdges edges) : e ∈ edges := by
  unfold dedupEdges at h
  rw [mem_sortOn, Dict.mem_values_iff_get?] at h
  obtain ⟨k, hk⟩ := h
  exact (foldl_chooseEdge_spec edges k e hk).2

/-- One edge per unordered pair. -/
def OnePerPair (edges : List Edge) : Prop :=
  edges.Pairwise fun e f => frozenPair e.src e.dst ≠ frozenPair f.src f.dst

theorem dedupEdges_onePerPair (edges : List Edge) : OnePerPair (dedupEdges edges) := by
  unfold OnePerPair dedupEdges
  set chosen := edges.foldl chooseEdge ∅ with hchosen
  refine List.Pairwise.perm ?_ (sortOn_perm _ _).symm (fun h => h.symm)
  have hkeys : chosen.values.map (fun e => frozenPair e.src e.dst) = chosen.keys := by
    apply Dict.values_map_eq_keys
    intro k e hk
    exact (foldl_chooseEdge_spec edges k e hk).1.symm
  have hnd : (chosen.values.map fun e => frozenPair e.src e.dst).Nodup := hkeys ▸ chosen.keys_nodup
  exact List.pairwise_map.mp hnd

/-- The bare edges come from different pairs already. -/
theorem psiEdges_onePerPair (est : Estimators) (w : Witness) (active : List Pod) (onsetS : Dict Pod ℚ)
    (vectors cvec : Dict Pod Series) :
    OnePerPair (psiEdges est w active onsetS vectors cvec) := by
  have hnd : (sortOn id vectors.keys).Nodup :=
    (sortOn_perm id vectors.keys).nodup_iff.mpr vectors.keys_nodup
  -- either direction has the ends of its pair
  have hends : ∀ ab e, psiEdge est w active onsetS cvec ab = some e →
      frozenPair e.src e.dst = frozenPair ab.1 ab.2 := by
    intro ab e he
    unfold psiEdge at he
    dsimp only at he
    split at he
    · exact absurd he (by simp)
    · split at he
      · exact absurd he (by simp)
      · obtain ⟨-, -, -, -, rfl⟩ := acceptEdge_spec he
        cases (bestDirected est ((cvec.get? ab.1).getD []) ((cvec.get? ab.2).getD [])).forward
        · exact frozenPair_comm _ _
        · rfl
  unfold OnePerPair psiEdges podPairs
  rw [List.pairwise_filterMap]
  refine (pairs_pairwise hnd).imp ?_
  rintro p q ⟨hne, hswap⟩ e he f hf heq
  rw [hends p e he, hends q f hf, frozenPair_eq_iff] at heq
  rcases heq with ⟨h1, h2⟩ | ⟨h1, h2⟩
  · exact hne (Prod.ext h1 h2)
  · exact hswap (Prod.ext h1 h2)

/-! ## The edges of a pass -/

/-- Every edge of a pass was admitted in one of the two loops. -/
theorem passEdges_origin (h : e ∈ passEdges est args) :
    e ∈ psiEdges est args.witness args.active args.onsetS args.vectors args.cvec ∨
    e ∈ sourceEdges est args.witness args.active args.onsetS args.writeOnsetS args.cvec
      args.writeCvec := by
  unfold passEdges at h
  dsimp only at h
  split at h
  · exact Or.inl h
  · exact List.mem_append.mp (mem_dedupEdges h)

/-- **Every edge of a pass is a bare edge or a source edge.** -/
theorem passEdges_spec (h : e ∈ passEdges est args) : BareEdge est args e ∨ SourceEdge est args e :=
  (passEdges_origin h).imp psiEdges_spec sourceEdges_spec

theorem passEdges_onePerPair (est : Estimators) (args : PassArgs) : OnePerPair (passEdges est args) := by
  unfold passEdges
  dsimp only
  split
  · exact psiEdges_onePerPair _ _ _ _ _ _
  · exact dedupEdges_onePerPair _

/-- A bare edge never cites a write, a source edge always does. -/
theorem BareEdge.write_not_mem (h : BareEdge est args e) : Evidence.write ∉ e.evidence := by
  rw [h.evidence]; exact write_not_mem_accept

theorem SourceEdge.write_mem (h : SourceEdge est args e) : Evidence.write ∈ e.evidence := by
  rw [h.evidence]; simp

/-- Without an anomalous pod there is no edge. -/
theorem passEdges_eq_nil (h : args.active = []) : passEdges est args = [] := by
  rw [List.eq_nil_iff_forall_not_mem]
  intro e he
  rcases passEdges_spec he with hb | hs
  · exact hb.disturbed h
  · have hv := hs.victim
    rw [h] at hv
    exact absurd hv (by simp)

end EdgeCausal
