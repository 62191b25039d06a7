import EdgeCausal.Api.Narrative

/-!
# `Correctness.NarrativeCache` — when a cached verdict still tells the story

The cache is keyed by root, edge states and case register; the sentence also cites the strongest edge's victim
and evidence, the active signal and an ETA, and the prompt a resource word. Cause and register are therefore
the same for two graphs of one signature (`signed_alike`), and `cached_story_iff` says exactly what else has to
agree. `run_tells_story` carries this to the cache as it is used, over any sequence of requests.
-/

namespace EdgeCausal.Api

open Lib

/-! ## The property -/

/-- What a story names, the ETA aside: cause, victim, signal, evidence and case register. -/
def Story.named (s : Story) : Workload × Workload × Signal × List Evidence × Option Register :=
  (s.cause, s.victim, s.signal, s.evidence, s.register)

/-- The resource word a graph's prompt carries; without a root there is no prompt. -/
def promptResource (primary : Signal) (g : NormalGraph) : Option String :=
  if g.root = [] then none else some (promptOf primary g).resource

/-- The second graph's template names what the first one's does, and the prompts carry one resource word. -/
structure SameStory (primary : Signal) (g₁ g₂ : NormalGraph) : Prop where
  named : (story primary g₂).map Story.named = (story primary g₁).map Story.named
  resource : promptResource primary g₂ = promptResource primary g₁

/-! ## The condition -/

/-- The first strongest of the edges leaving the root. -/
def Strongest (g : NormalGraph) (e : NormalEdge) : Prop :=
  ∃ before after, outEdges g = before ++ e :: after ∧ (∀ x ∈ before, |x.r| < |e.r|) ∧ ∀ x ∈ after, |x.r| ≤ |e.r|

/-- The label a resource word is chosen by: that of the first labelled edge leaving the root, else the label
    of the whole graph. -/
def Labels (primary : Signal) (g : NormalGraph) (label : Signal) : Prop :=
  ∃ top rest, g.root = top :: rest ∧
    ((∃ e, g.edges.find? (namesSignal (some top.pod)) = some e ∧ e.signal = some label) ∨
      (g.edges.find? (namesSignal (some top.pod)) = none ∧ label = signalLabel primary g))

/-- What the signature leaves out, alike in two graphs. -/
structure UnsignedAlike (primary : Signal) (g₁ g₂ : NormalGraph) : Prop where
  strongest : ∀ e₁ e₂, Strongest g₁ e₁ → Strongest g₂ e₂ →
    e₂.dst = e₁.dst ∧ e₂.evidence = e₁.evidence ∧ signalLabel primary g₂ = signalLabel primary g₁
  resource : ∀ s₁ s₂, Labels primary g₁ s₁ → Labels primary g₂ s₂ → signalResource s₂ = signalResource s₁

/-- The blast radius gives the victims of the strongest edges one ETA. -/
def EtaAlike (g₁ g₂ : NormalGraph) : Prop :=
  ∀ e₁ e₂, Strongest g₁ e₁ → Strongest g₂ e₂ → shownEta g₂ e₂.dst = shownEta g₁ e₁.dst

/-! ## What the signature settles -/

/-- What two graphs of one signature share. -/
structure SignedAlike (g₁ g₂ : NormalGraph) : Prop where
  root : g₂.root.head?.map RankEntry.pod = g₁.root.head?.map RankEntry.pod
  register : shownRegister g₂ = shownRegister g₁
  edges : g₂.edges = [] ↔ g₁.edges = []

variable {primary : Signal} {g g₁ g₂ : NormalGraph} {sig : VerdictSignature}

theorem signature_eq (h : verdictSignature g = some sig) :
    sig.root = g.root.head?.map RankEntry.pod ∧ sig.case = g.info.case.map CaseTag.register ∧
      sig.edges.length = g.edges.length := by
  unfold verdictSignature at h
  split at h
  · exact absurd h (by simp)
  · obtain rfl := Option.some.inj h
    refine ⟨rfl, rfl, ?_⟩
    show (sortOn tupleOrder _).length = _
    rw [(sortOn_perm _ _).length_eq, List.length_map]

theorem signed_alike (h₁ : verdictSignature g₁ = some sig) (h₂ : verdictSignature g₂ = some sig) :
    SignedAlike g₁ g₂ := by
  obtain ⟨hroot₁, hcase₁, hlen₁⟩ := signature_eq h₁
  obtain ⟨hroot₂, hcase₂, hlen₂⟩ := signature_eq h₂
  refine ⟨hroot₂.symm.trans hroot₁, ?_, ?_⟩
  · unfold shownRegister
    rw [← hcase₂, hcase₁]
  · rw [← List.length_eq_zero_iff, ← List.length_eq_zero_iff, ← hlen₂, hlen₁]

theorem SignedAlike.rootless (h : SignedAlike g₁ g₂) : g₂.root = [] ↔ g₁.root = [] := by
  have hroot := h.root
  cases h₁ : g₁.root with
  | nil =>
      rw [h₁] at hroot
      have hnone : g₂.root.head? = none := Option.map_eq_none_iff.mp hroot
      exact iff_of_true (List.head?_eq_none_iff.mp hnone) rfl
  | cons top rest =>
      rw [h₁] at hroot
      refine iff_of_false (fun hnil => ?_) (List.cons_ne_nil top rest)
      rw [hnil] at hroot
      exact absurd hroot (by simp)

/-! ## The story of the strongest edge -/

theorem strongest_iff {e : NormalEdge} : Strongest g e ↔ firstMax (fun e => |e.r|) (outEdges g) = some e :=
  firstMax_eq_some_iff.symm

@[simp] theorem outEdges_eq_nil_iff : outEdges g = [] ↔ g.root = [] ∨ g.edges = [] := by
  unfold outEdges
  cases hroot : g.root with
  | nil => simp
  | cons top rest =>
      by_cases hout : (g.edges.filter fun e => e.src = top.pod) = []
      · simp [hout]
      · have hne : g.edges ≠ [] := fun h => hout (by rw [h]; rfl)
        simp [hout, hne]

/-- A graph of the same signature has edges leaving the root when the other has. -/
theorem SignedAlike.outEdges_eq_nil (h : SignedAlike g₁ g₂) : outEdges g₂ = [] ↔ outEdges g₁ = [] := by
  rw [outEdges_eq_nil_iff, outEdges_eq_nil_iff, h.rootless, h.edges]

theorem story_of_no_edges (h : outEdges g = []) : story primary g = none := by
  unfold story
  split
  · rfl
  · rw [h]
    rfl

/-- **The story is the strongest edge's.** -/
theorem story_of_strongest (primary : Signal) {e : NormalEdge} (h : Strongest g e) :
    ∃ top rest, g.root = top :: rest ∧ story primary g
      = some ⟨top.pod, e.dst, signalLabel primary g, e.evidence, shownEta g e.dst, shownRegister g⟩ := by
  have hmax := strongest_iff.mp h
  cases hroot : g.root with
  | nil =>
      have hnil : outEdges g = [] := outEdges_eq_nil_iff.mpr (Or.inl hroot)
      rw [hnil] at hmax
      exact absurd hmax (by simp [firstMax])
  | cons top rest =>
      refine ⟨top, rest, rfl, ?_⟩
      unfold story
      rw [hroot]
      dsimp only
      rw [hmax]
      rfl

/-- Two graphs of one signature: neither has a story, or both have a strongest edge and blame one cause. -/
theorem stories (primary : Signal) (h : SignedAlike g₁ g₂) :
    (story primary g₁ = none ∧ story primary g₂ = none ∧ ∀ e, ¬ Strongest g₁ e) ∨
      ∃ cause e₁ e₂, Strongest g₁ e₁ ∧ Strongest g₂ e₂ ∧
        story primary g₁ = some ⟨cause, e₁.dst, signalLabel primary g₁, e₁.evidence, shownEta g₁ e₁.dst,
          shownRegister g₁⟩ ∧
        story primary g₂ = some ⟨cause, e₂.dst, signalLabel primary g₂, e₂.evidence, shownEta g₂ e₂.dst,
          shownRegister g₁⟩ := by
  cases hmax₁ : firstMax (fun e : NormalEdge => |e.r|) (outEdges g₁) with
  | none =>
      have hnil := firstMax_eq_none_iff.mp hmax₁
      refine Or.inl ⟨story_of_no_edges hnil, story_of_no_edges (h.outEdges_eq_nil.mpr hnil), ?_⟩
      intro e he
      rw [strongest_iff, hmax₁] at he
      exact absurd he (by simp)
  | some e₁ =>
      cases hmax₂ : firstMax (fun e : NormalEdge => |e.r|) (outEdges g₂) with
      | none =>
          have hnil := h.outEdges_eq_nil.mp (firstMax_eq_none_iff.mp hmax₂)
          rw [hnil] at hmax₁
          exact absurd hmax₁ (by simp [firstMax])
      | some e₂ =>
          have he₁ := strongest_iff.mpr hmax₁
          have he₂ := strongest_iff.mpr hmax₂
          obtain ⟨top₁, rest₁, hroot₁, hstory₁⟩ := story_of_strongest primary he₁
          obtain ⟨top₂, rest₂, hroot₂, hstory₂⟩ := story_of_strongest primary he₂
          have hcause := h.root
          rw [hroot₁, hroot₂] at hcause
          have hpod : top₂.pod = top₁.pod := Option.some.inj hcause
          rw [hpod, h.register] at hstory₂
          exact Or.inr ⟨top₁.pod, e₁, e₂, he₁, he₂, hstory₁, hstory₂⟩

theorem strongest_unique {e e' : NormalEdge} (h : Strongest g e) (h' : Strongest g e') : e' = e :=
  Option.some.inj ((strongest_iff.mp h').symm.trans (strongest_iff.mp h))

theorem named_iff (h : SignedAlike g₁ g₂) :
    (story primary g₂).map Story.named = (story primary g₁).map Story.named ↔
      ∀ e₁ e₂, Strongest g₁ e₁ → Strongest g₂ e₂ →
        e₂.dst = e₁.dst ∧ e₂.evidence = e₁.evidence ∧ signalLabel primary g₂ = signalLabel primary g₁ := by
  rcases stories primary h with ⟨hnone₁, hnone₂, hno⟩ | ⟨cause, e₁, e₂, he₁, he₂, hstory₁, hstory₂⟩
  · rw [hnone₁, hnone₂]
    exact iff_of_true rfl fun e₁ _ he₁ => absurd he₁ (hno e₁)
  · rw [hstory₁, hstory₂]
    constructor
    · intro hsame e₁' e₂' he₁' he₂'
      obtain rfl := strongest_unique he₁ he₁'
      obtain rfl := strongest_unique he₂ he₂'
      simp only [Option.map_some, Story.named, Option.some.injEq, Prod.mk.injEq] at hsame
      exact ⟨hsame.2.1, hsame.2.2.2.1, hsame.2.2.1⟩
    · intro halike
      obtain ⟨hdst, hev, hlabel⟩ := halike e₁ e₂ he₁ he₂
      simp [Story.named, hdst, hev, hlabel]

theorem eta_iff (h : SignedAlike g₁ g₂)
    (hnamed : (story primary g₂).map Story.named = (story primary g₁).map Story.named) :
    story primary g₂ = story primary g₁ ↔ EtaAlike g₁ g₂ := by
  rcases stories primary h with ⟨hnone₁, hnone₂, hno⟩ | ⟨cause, e₁, e₂, he₁, he₂, hstory₁, hstory₂⟩
  · rw [hnone₁, hnone₂]
    exact iff_of_true rfl fun e₁ _ he₁ => absurd he₁ (hno e₁)
  · obtain ⟨hdst, hev, hlabel⟩ := (named_iff h).mp hnamed e₁ e₂ he₁ he₂
    rw [hstory₁, hstory₂]
    constructor
    · intro hsame e₁' e₂' he₁' he₂'
      obtain rfl := strongest_unique he₁ he₁'
      obtain rfl := strongest_unique he₂ he₂'
      exact congrArg Story.eta (Option.some.inj hsame)
    · intro heta
      rw [heta e₁ e₂ he₁ he₂, hdst, hev, hlabel]

/-! ## The resource word -/

theorem contendedSignal_of_labels {label : Signal} (h : Labels primary g label) :
    contendedSignal primary g = label := by
  obtain ⟨top, rest, hroot, hlabel⟩ := h
  unfold contendedSignal
  rw [hroot]
  show ((g.edges.find? (namesSignal (some top.pod))).bind NormalEdge.signal).getD _ = label
  rcases hlabel with ⟨e, hfind, hsig⟩ | ⟨hfind, rfl⟩
  · rw [hfind]
    show (e.signal).getD _ = label
    rw [hsig]
    rfl
  · rw [hfind]
    rfl

theorem exists_labels (primary : Signal) (hroot : g.root ≠ []) : ∃ label, Labels primary g label := by
  obtain ⟨top, rest, htop⟩ := List.exists_cons_of_ne_nil hroot
  cases hfind : g.edges.find? (namesSignal (some top.pod)) with
  | none => exact ⟨_, top, rest, htop, Or.inr ⟨hfind, rfl⟩⟩
  | some e =>
      -- an edge that names a signal carries one
      have hnames := List.find?_some hfind
      cases hsig : e.signal with
      | none => simp [namesSignal, hsig, truthy] at hnames
      | some label => exact ⟨label, top, rest, htop, Or.inl ⟨e, hfind, hsig⟩⟩

theorem promptResource_of_labels {label : Signal} (h : Labels primary g label) :
    promptResource primary g = some (signalResource label) := by
  have hsig := contendedSignal_of_labels h
  obtain ⟨top, rest, hroot, -⟩ := h
  have hne : g.root ≠ [] := by rw [hroot]; exact List.cons_ne_nil top rest
  unfold promptResource
  rw [if_neg hne, ← hsig]
  rfl

theorem resource_iff (h : SignedAlike g₁ g₂) :
    promptResource primary g₂ = promptResource primary g₁ ↔
      ∀ s₁ s₂, Labels primary g₁ s₁ → Labels primary g₂ s₂ → signalResource s₂ = signalResource s₁ := by
  by_cases hroot : g₁.root = []
  · have hroot₂ := h.rootless.mpr hroot
    unfold promptResource
    rw [if_pos hroot, if_pos hroot₂]
    refine iff_of_true rfl ?_
    rintro s₁ s₂ ⟨top, rest, htop, -⟩ -
    rw [hroot] at htop
    exact absurd htop (by simp)
  · obtain ⟨s₁, hs₁⟩ := exists_labels primary hroot
    obtain ⟨s₂, hs₂⟩ := exists_labels primary (fun hnil => hroot (h.rootless.mp hnil))
    rw [promptResource_of_labels hs₁, promptResource_of_labels hs₂]
    constructor
    · intro hsame s₁' s₂' hs₁' hs₂'
      rw [← contendedSignal_of_labels hs₁', ← contendedSignal_of_labels hs₂', contendedSignal_of_labels hs₁,
        contendedSignal_of_labels hs₂]
      exact Option.some.inj hsame
    · intro halike
      rw [halike s₁ s₂ hs₁ hs₂]

theorem sameStory_iff (h : SignedAlike g₁ g₂) : SameStory primary g₁ g₂ ↔ UnsignedAlike primary g₁ g₂ := by
  constructor
  · rintro ⟨hnamed, hres⟩
    exact ⟨(named_iff h).mp hnamed, (resource_iff h).mp hres⟩
  · rintro ⟨hstrong, hres⟩
    exact ⟨(named_iff h).mpr hstrong, (resource_iff h).mpr hres⟩

/-! ## The exact condition -/

/-- **Cache coherence.** Of two graphs with one signature, the text for the first names what the template names
    for the second, with one resource word in the prompts, if and only if what the signature leaves out is
    alike: victim and evidence of the strongest edge leaving the root, the active signal, and the resource of
    the label the root's edges carry. The ETA stays the same as well if and only if the blast radius gives
    it. -/
theorem cached_story_iff {primary : Signal} {g₁ g₂ : NormalGraph} {sig : VerdictSignature}
    (h₁ : verdictSignature g₁ = some sig) (h₂ : verdictSignature g₂ = some sig) :
    (SameStory primary g₁ g₂ ↔ UnsignedAlike primary g₁ g₂) ∧
      (SameStory primary g₁ g₂ ∧ story primary g₂ = story primary g₁ ↔
        UnsignedAlike primary g₁ g₂ ∧ EtaAlike g₁ g₂) := by
  have h := signed_alike h₁ h₂
  refine ⟨sameStory_iff h, ?_⟩
  constructor
  · rintro ⟨hsame, hstory⟩
    exact ⟨(sameStory_iff h).mp hsame, (eta_iff h hsame.named).mp hstory⟩
  · rintro ⟨halike, heta⟩
    have hsame := (sameStory_iff h).mpr halike
    exact ⟨hsame, (eta_iff h hsame.named).mpr heta⟩

/-- A bulk archive stalls two workloads; the correlations of its two edges vary from pass to pass. -/
def archiveStorm (r₁ r₂ : ℚ) : NormalGraph :=
  let mark : EdgeMark := ⟨.live, 1 / 2, 1 / 2, .active, 3, none, none⟩
  graph
    { findings := []
      edges :=
        [⟨⟨"log-archiver-s2-4kq7z", "cooling-monitor-6644486769-6wlst", r₁, 5, [.stat, .write, .pvc]⟩,
          some mark,
            some "psi_io"⟩,
          ⟨⟨"log-archiver-s2-4kq7z", "historian-db-7d9c5b8f64-tq2vn", r₂, 5, [.stat, .pvc]⟩, some mark,
            some "psi_io"⟩]
      rootCauseRanking := [⟨"log-archiver-s2-4kq7z", 1, some 40⟩]
      blastRadius :=
        [⟨"cooling-monitor-6644486769-6wlst", 9 / 10, 5⟩, ⟨"historian-db-7d9c5b8f64-tq2vn", 8 / 10, 5⟩]
      info := ⟨["psi_cpu", "psi_io", "psi_mem"], none, 0, none, some "psi_io", 6, 1, 2⟩ } []

theorem cached_story_iff_storm :
    (SameStory "psi_io" (archiveStorm (9 / 10) (7 / 10)) (archiveStorm (8 / 10) (7 / 10)) ↔
        UnsignedAlike "psi_io" (archiveStorm (9 / 10) (7 / 10)) (archiveStorm (8 / 10) (7 / 10))) ∧
      (SameStory "psi_io" (archiveStorm (9 / 10) (7 / 10)) (archiveStorm (8 / 10) (7 / 10)) ∧
          story "psi_io" (archiveStorm (8 / 10) (7 / 10)) = story "psi_io" (archiveStorm (9 / 10) (7 / 10)) ↔
        UnsignedAlike "psi_io" (archiveStorm (9 / 10) (7 / 10)) (archiveStorm (8 / 10) (7 / 10)) ∧
          EtaAlike (archiveStorm (9 / 10) (7 / 10)) (archiveStorm (8 / 10) (7 / 10))) := by
  have hsig : verdictSignature (archiveStorm (9 / 10) (7 / 10))
      = some ⟨some "log-archiver",
          [("log-archiver", "cooling-monitor", some .active), ("log-archiver", "historian-db", some .active)],
          none⟩ := by decide +kernel
  exact cached_story_iff hsig (by decide +kernel)

/-- The other edge becomes the stronger one: same signature, another victim and other evidence. -/
theorem stale_victim_cached :
    (verdictSignature (archiveStorm (9 / 10) (7 / 10))).isSome = true ∧
      verdictSignature (archiveStorm (7 / 10) (9 / 10)) = verdictSignature (archiveStorm (9 / 10) (7 / 10)) ∧
      ¬ SameStory "psi_io" (archiveStorm (9 / 10) (7 / 10)) (archiveStorm (7 / 10) (9 / 10)) := by
  refine ⟨by decide +kernel, by decide +kernel, ?_⟩
  intro h
  exact absurd h.named (by decide +kernel)

/-! ## The cache in use -/

section Runs
variable (primary) (ollamaModel : String)

/-- A cached reply is what the model answered to an earlier request with that signature. -/
def CachedFrom (reqs : List Request) (cache : NarrCache) : Prop :=
  ∀ sig reply, cache = some (sig, reply) → ∃ q ∈ reqs,
    verdictSignature q.graph = some sig ∧ q.ollama (promptOf primary q.graph) = some reply.text

variable {primary ollamaModel} in
theorem freshReply_of_answer {req : Request} {text : String}
    (h : req.ollama (promptOf primary req.graph) = some text) :
    freshReply primary ollamaModel req = ⟨text, .llm, some ollamaModel, req.ts⟩ := by
  unfold freshReply
  rw [h]

variable {primary ollamaModel} in
theorem freshReply_of_silence {req : Request} (h : req.ollama (promptOf primary req.graph) = none) :
    freshReply primary ollamaModel req = ⟨templateNarrative primary req.graph, .fallback, none, req.ts⟩ := by
  unfold freshReply
  rw [h]

/-- One request keeps the cache, or writes the model's answer to it under its own signature. -/
theorem narrative_cache (cache : NarrCache) (req : Request) :
    (narrative primary ollamaModel cache req).2 = cache ∨
      ∃ sig text, verdictSignature req.graph = some sig ∧
        req.ollama (promptOf primary req.graph) = some text ∧
        (narrative primary ollamaModel cache req).2 = some (sig, ⟨text, .llm, some ollamaModel, req.ts⟩) := by
  unfold narrative
  dsimp only
  split
  · split <;> exact Or.inl rfl
  · split
    · exact Or.inl rfl
    · rename_i sig hsig
      split
      · exact Or.inl rfl
      · cases hans : req.ollama (promptOf primary req.graph) with
        | none =>
            rw [freshReply_of_silence hans]
            exact Or.inl rfl
        | some text =>
            rw [freshReply_of_answer hans]
            exact Or.inr ⟨sig, text, hsig, rfl, rfl⟩

theorem cachedFrom_step {reqs : List Request} {cache : NarrCache}
    (h : CachedFrom primary reqs cache) (req : Request) : CachedFrom primary (reqs ++ [req])
    (narrative primary ollamaModel cache req).2 := by
  intro sig reply hentry
  rcases narrative_cache primary ollamaModel cache req with
    hkeep | ⟨sig', text, hsig, hans, hwrite⟩
  · rw [hkeep] at hentry
    obtain ⟨q, hq, hfrom⟩ := h sig reply hentry
    exact ⟨q, List.mem_append_left [req] hq, hfrom⟩
  · obtain ⟨rfl, rfl⟩ := Prod.mk.inj (Option.some.inj (hwrite.symm.trans hentry))
    exact ⟨req, List.mem_append_right reqs List.mem_cons_self, hsig, hans⟩

/-- Every entry the cache holds after a run was written by a request of the run. -/
theorem cachedFrom_run (reqs : List Request) :
    CachedFrom primary reqs (narrativeRun primary ollamaModel none reqs) := by
  induction reqs using List.reverseRecOn with
  | nil => exact fun _ _ h => absurd h (by simp [narrativeRun])
  | append_singleton reqs req ih =>
      unfold narrativeRun
      rw [List.foldl_append]
      exact cachedFrom_step primary ollamaModel ih req

/-- What the model says in a reply it once said of a graph of the same signature. -/
theorem llm_reply (cache : NarrCache) (req : Request) {reply : Reply}
    (h : (narrative primary ollamaModel cache req).1 = some reply) (hllm : reply.source = .llm) :
    ∃ sig text fc, verdictSignature req.graph = some sig ∧ reply.text = text ++ fc ∧
      ((∃ old, cache = some (sig, old) ∧ old.text = text) ∨
        req.ollama (promptOf primary req.graph) = some text) := by
  unfold narrative at h
  dsimp only at h
  split at h
  · split at h <;> obtain rfl := Option.some.inj h <;> exact absurd hllm (by simp)
  · split at h
    · exact absurd h (by simp)
    · rename_i sig hsig
      split at h
      · -- the verdict is served from the cache
        rename_i entry hentry
        obtain ⟨hcache, hkey⟩ := Option.filter_eq_some_iff.mp hentry
        obtain rfl : entry.1 = sig := by simpa using hkey
        obtain rfl := Option.some.inj h
        exact ⟨entry.1, entry.2.text, _, hsig, rfl, Or.inl ⟨entry.2, hcache, rfl⟩⟩
      · obtain rfl := Option.some.inj h
        cases hans : req.ollama (promptOf primary req.graph) with
        | none =>
            rw [freshReply_of_silence hans] at hllm
            exact absurd hllm (by simp)
        | some text =>
            rw [freshReply_of_answer hans]
            exact ⟨sig, text, forecastSuffix req.graph, hsig, rfl, Or.inr rfl⟩

/-- **Over any run**, if every graph asked about before with the signature of this one is alike in what the
    signature leaves out, what the model says in the reply it said of a graph with the same story. -/
theorem run_tells_story {reqs : List Request} {req : Request}
    (halike : ∀ q ∈ reqs, verdictSignature q.graph = verdictSignature req.graph →
      UnsignedAlike primary q.graph req.graph) {reply : Reply}
    (h : (narrative primary ollamaModel (narrativeRun primary ollamaModel none reqs) req).1 = some reply)
    (hllm : reply.source = .llm) :
    ∃ (q : Request) (text fc : String), q.ollama (promptOf primary q.graph) = some text ∧
      reply.text = text ++ fc ∧ SameStory primary q.graph req.graph := by
  obtain ⟨sig, text, fc, hsig, htext, ⟨old, hcache, rfl⟩ | hfresh⟩ := llm_reply primary ollamaModel _ req h hllm
  · obtain ⟨q, hq, hqsig, hans⟩ := cachedFrom_run primary ollamaModel reqs sig old hcache
    have hstory := (sameStory_iff (signed_alike hqsig hsig)).mpr (halike q hq (hqsig.trans hsig.symm))
    exact ⟨q, old.text, fc, hans, htext, hstory⟩
  · exact ⟨req, text, fc, hfresh, htext, ⟨rfl, rfl⟩⟩

end Runs

end EdgeCausal.Api
