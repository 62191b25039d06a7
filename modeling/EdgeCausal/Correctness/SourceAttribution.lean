import EdgeCausal.Correctness.GateSound

/-!
# `Correctness.SourceAttribution` — source edges are acyclic and keep their direction

A source edge is admitted only from the pod with the greater peak activity, so peak activity falls along
every chain of write-evidenced edges: there is no cycle, and the most active source is nobody's victim. The
dedup loop keeps the first most preferred candidate of each unordered pair (`mem_dedupEdges_iff`); a pair has
at most one source candidate, and it is preferred to every bare one, so it survives in whatever order the
candidates come.
-/

namespace EdgeCausal

open Lib

variable {est : Estimators} {args : PassArgs} {e f : Edge}

/-! ## Deduplication keeps the most preferred candidate -/

/-- One candidate competes for its own pair alone. -/
theorem get?_chooseEdge (chosen : Dict (Pod × Pod) Edge) (c : Edge) (pair : Pod × Pod) :
    (chooseEdge chosen c).get? pair = if some (frozenPair c.src c.dst) = some pair
      then some (better edgePref c (chosen.get? pair)) else chosen.get? pair := by
  unfold chooseEdge
  dsimp only
  by_cases hp : frozenPair c.src c.dst = pair
  · subst hp
    rw [if_pos rfl]
    cases hget : chosen.get? (frozenPair c.src c.dst) with
    | none => simp [Dict.get?_set, better]
    | some old =>
        dsimp only [better]
        split
        · simp [Dict.get?_set]
        · exact hget
  · rw [if_neg (by simpa using hp)]
    split
    · rw [Dict.get?_set, if_neg (Ne.symm hp)]
    · split
      · rw [Dict.get?_set, if_neg (Ne.symm hp)]
      · rfl

/-- The candidates for the pair of an edge. -/
def rivalEdges (edges : List Edge) (e : Edge) : List Edge :=
  edges.filter fun c => frozenPair c.src c.dst = frozenPair e.src e.dst

/-- **The dedup loop**: an edge is kept when it is the first most preferred candidate of its pair. -/
theorem mem_dedupEdges_iff {edges : List Edge} :
    e ∈ dedupEdges edges ↔ firstMax edgePref (rivalEdges edges e) = some e := by
  have hchosen : ∀ pair, (edges.foldl chooseEdge ∅).get? pair
      = firstMax edgePref (edges.filter fun c => frozenPair c.src c.dst = pair) := by
    intro pair
    rw [Dict.get?_foldl_update (f := fun c old => better edgePref c old) get?_chooseEdge, Dict.get?_empty,
      foldl_better]
    simp
  unfold dedupEdges rivalEdges
  rw [mem_sortOn, Dict.mem_values_iff_get?]
  constructor
  · rintro ⟨pair, hpair⟩
    obtain ⟨rfl, -⟩ := foldl_chooseEdge_spec edges pair e hpair
    rw [← hchosen]
    exact hpair
  · intro h
    exact ⟨_, (hchosen _).trans h⟩

/-- A source candidate is preferred to every bare one. -/
theorem edgePref_lt_of_write (he : Evidence.write ∈ e.evidence) (hf : Evidence.write ∉ f.evidence) :
    edgePref f < edgePref e := by
  unfold edgePref
  rw [if_pos he, if_neg hf]
  exact Prod.Lex.toLex_lt_toLex.mpr (Or.inl zero_lt_one)

/-- The only source candidate of a pair is the edge kept for it, whatever the order of the candidates. -/
theorem dedupEdges_keeps_write {edges : List Edge} (he : e ∈ edges) (hw : Evidence.write ∈ e.evidence)
    (honly : ∀ c ∈ edges, Evidence.write ∈ c.evidence →
      frozenPair c.src c.dst = frozenPair e.src e.dst → c = e) :
    e ∈ dedupEdges edges ∧
    ∀ c ∈ dedupEdges edges, frozenPair c.src c.dst = frozenPair e.src e.dst → c = e := by
  -- whatever is preferred among the candidates of the pair is a source candidate, hence `e`
  have hbest : ∀ c, firstMax edgePref (rivalEdges edges e) = some c → c = e := by
    intro c hc
    obtain ⟨hmem, hpair⟩ := List.mem_filter.mp (firstMax_mem hc)
    have hle : edgePref e ≤ edgePref c := le_firstMax hc e (List.mem_filter.mpr ⟨he, by simp⟩)
    apply honly c hmem _ (by simpa using hpair)
    by_contra hbare
    exact absurd hle (not_le.mpr (edgePref_lt_of_write hw hbare))
  constructor
  · rw [mem_dedupEdges_iff]
    cases hmax : firstMax edgePref (rivalEdges edges e) with
    | none =>
        have hself : e ∈ rivalEdges edges e := List.mem_filter.mpr ⟨he, by simp⟩
        rw [firstMax_eq_none_iff.mp hmax] at hself
        exact absurd hself (by simp)
    | some c => rw [hbest c hmax]
  · intro c hc hpair
    apply hbest
    rw [mem_dedupEdges_iff] at hc
    unfold rivalEdges at hc ⊢
    rwa [hpair] at hc

/-! ## The source candidates of a pass -/

/-- The candidates of the first loop. -/
def PassArgs.bareCandidates (est : Estimators) (args : PassArgs) : List Edge :=
  psiEdges est args.witness args.active args.onsetS args.vectors args.cvec

/-- The candidates of the second loop: the source edges that passed the guards. -/
def PassArgs.sourceCandidates (est : Estimators) (args : PassArgs) : List Edge :=
  sourceEdges est args.witness args.active args.onsetS args.writeOnsetS args.cvec args.writeCvec

/-- The writer gate keeps the direction it is given. -/
theorem writerEdge_ends {src dst : Pod} {wsrc vdst : Series} {w : Witness} {tw tv : Option ℚ}
    (h : writerEdge est src dst wsrc vdst w tw tv = some e) : e.src = src ∧ e.dst = dst := by
  unfold writerEdge at h
  dsimp only at h
  split at h
  · exact absurd h (by simp)
  · split at h
    · exact absurd h (by simp)
    · split at h
      · exact absurd h (by simp)
      · split at h
        · split at h
          · exact absurd h (by simp)
          · rw [← Option.some.inj h]
            exact ⟨rfl, rfl⟩
        · rw [← Option.some.inj h]
          exact ⟨rfl, rfl⟩

/-- A source candidate is what the loop computes for its own two pods. -/
theorem sourceEdge_of_mem (h : e ∈ args.sourceCandidates est) :
    sourceEdge est args.witness args.active args.onsetS args.writeOnsetS args.cvec args.writeCvec
      e.src e.dst = some e := by
  obtain ⟨p, -, h⟩ := List.mem_flatMap.mp h
  obtain ⟨v, -, h⟩ := List.mem_filterMap.mp h
  have hends : e.src = p ∧ e.dst = v := by
    unfold sourceEdge at h
    dsimp only at h
    split_ifs at h
    exact writerEdge_ends h
  rw [hends.1, hends.2, h]

/-- Two source candidates never face each other: each source would have to out-write the other. -/
theorem sourceCandidates_one_way (he : e ∈ args.sourceCandidates est)
    (hf : f ∈ args.sourceCandidates est) : ¬ (e.src = f.dst ∧ e.dst = f.src) := by
  rintro ⟨h1, h2⟩
  have hde := (sourceEdges_spec he).dominant
  have hdf := (sourceEdges_spec hf).dominant
  rw [h1, h2] at hde
  exact absurd hde (not_lt.mpr hdf.le)

/-- A pair has at most one source candidate. -/
theorem sourceCandidates_unique (he : e ∈ args.sourceCandidates est)
    (hf : f ∈ args.sourceCandidates est)
    (hpair : frozenPair f.src f.dst = frozenPair e.src e.dst) : f = e := by
  rcases frozenPair_eq_iff.mp hpair with ⟨h1, h2⟩ | ⟨h1, h2⟩
  · have hfe := sourceEdge_of_mem hf
    rw [h1, h2, sourceEdge_of_mem he] at hfe
    exact (Option.some.inj hfe).symm
  · exact absurd ⟨h1, h2⟩ (sourceCandidates_one_way hf he)

/-- A source candidate survives deduplication in whatever order the candidates come. -/
theorem dedup_keeps_source {candidates : List Edge}
    (hperm : candidates.Perm (args.bareCandidates est ++ args.sourceCandidates est))
    (he : e ∈ args.sourceCandidates est) :
    e ∈ dedupEdges candidates ∧
    ∀ c ∈ dedupEdges candidates, frozenPair c.src c.dst = frozenPair e.src e.dst → c = e := by
  apply dedupEdges_keeps_write
  · exact hperm.mem_iff.mpr (List.mem_append_right _ he)
  · exact (sourceEdges_spec he).write_mem
  · intro c hc hw hpair
    rcases List.mem_append.mp (hperm.mem_iff.mp hc) with hc | hc
    · exact absurd hw (psiEdges_spec hc).write_not_mem
    · exact sourceCandidates_unique he hc hpair

/-- Where there is a source candidate, the pass had source vectors and deduplicated. -/
theorem passEdges_of_source (he : e ∈ args.sourceCandidates est) :
    passEdges est args = dedupEdges (args.bareCandidates est ++ args.sourceCandidates est) := by
  obtain ⟨tw, tv, htw, -, -⟩ := (sourceEdges_spec he).stormed
  obtain ⟨wv, hwv, -⟩ := writeOnset_spec htw
  have hne : args.writes.entries ≠ [] := List.ne_nil_of_mem (Dict.get?_eq_some_iff.mp hwv)
  unfold passEdges
  exact if_neg hne

/-! ## Activity falls along write-evidenced edges -/

/-- The output has a write-evidenced edge from `p` to `v`. -/
def Drives (est : Estimators) (args : PassArgs) (p v : Pod) : Prop :=
  ∃ e ∈ (runPass est args).edges, Evidence.write ∈ e.evidence ∧ e.src = p ∧ e.dst = v

theorem Drives.lt {p v : Pod} (h : Drives est args p v) : args.writeAct v < args.writeAct p := by
  obtain ⟨e, he, hw, rfl, rfl⟩ := h
  rcases passEdges_spec he with hb | hs
  · exact absurd hw hb.write_not_mem
  · exact hs.dominant

/-- A chain of write-evidenced edges ends at a pod that writes less. -/
theorem writeAct_lt_of_chain {p v : Pod} (h : Relation.TransGen (Drives est args) p v) :
    args.writeAct v < args.writeAct p := by
  induction h with
  | single h => exact h.lt
  | tail _ h ih => exact h.lt.trans ih

/-- The most active source is the target of no write-evidenced edge. -/
theorem exists_undriven {p v : Pod} (h : Drives est args p v) :
    ∃ p v, Drives est args p v ∧ ∀ q, ¬ Drives est args q p := by
  obtain ⟨e, he, hw, rfl, rfl⟩ := h
  set driven := (runPass est args).edges.filter (Evidence.write ∈ ·.evidence) with hdriven
  have hmem : ∀ {c}, c ∈ driven ↔ c ∈ (runPass est args).edges ∧ Evidence.write ∈ c.evidence := by
    simp [hdriven]
  cases hmax : firstMax (fun c => args.writeAct c.src) driven with
  | none =>
      have hnil := firstMax_eq_none_iff.mp hmax
      exact absurd (hmem.mpr ⟨he, hw⟩) (by simp [hnil])
  | some c =>
      obtain ⟨hc, hcw⟩ := hmem.mp (firstMax_mem hmax)
      refine ⟨c.src, c.dst, ⟨c, hc, hcw, rfl, rfl⟩, ?_⟩
      rintro q hq
      have hlt := hq.lt
      obtain ⟨d, hd, hdw, rfl, -⟩ := hq
      exact absurd hlt (not_lt.mpr (le_firstMax hmax d (hmem.mpr ⟨hd, hdw⟩)))

/-- **Source attribution is acyclic and direction-stable.** No chain of write-evidenced edges returns to its
    start, and if there is one some source is nobody's target; no two source edges that passed the guards face
    each other; and one that did is in the output as the only edge of its pair, in whatever order the
    candidates are deduplicated. -/
theorem source_attribution (est : Estimators) (args : PassArgs) :
    (∀ p, ¬ Relation.TransGen (Drives est args) p p) ∧
    ((∃ p v, Drives est args p v) → ∃ p v, Drives est args p v ∧ ∀ q, ¬ Drives est args q p) ∧
    (∀ e ∈ args.sourceCandidates est, ∀ f ∈ args.sourceCandidates est,
      ¬ (e.src = f.dst ∧ e.dst = f.src)) ∧
    (∀ e ∈ args.sourceCandidates est, e ∈ (runPass est args).edges ∧
      ∀ c ∈ (runPass est args).edges, frozenPair c.src c.dst = frozenPair e.src e.dst → c = e) ∧
    (∀ candidates : List Edge, candidates.Perm (args.bareCandidates est ++ args.sourceCandidates est) →
      ∀ e ∈ args.sourceCandidates est, e ∈ dedupEdges candidates ∧
        ∀ c ∈ dedupEdges candidates, frozenPair c.src c.dst = frozenPair e.src e.dst → c = e) := by
  refine ⟨?_, ?_, ?_, ?_, ?_⟩
  · intro p hcycle
    exact lt_irrefl _ (writeAct_lt_of_chain hcycle)
  · rintro ⟨p, v, h⟩
    exact exists_undriven h
  · intro e he f hf
    exact sourceCandidates_one_way he hf
  · intro e he
    show e ∈ passEdges est args ∧ ∀ c ∈ passEdges est args, _
    rw [passEdges_of_source he]
    exact dedup_keeps_source (List.Perm.refl _) he
  · intro candidates hperm e he
    exact dedup_keeps_source hperm he

end EdgeCausal
