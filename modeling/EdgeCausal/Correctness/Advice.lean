import EdgeCausal.Api.Resources

/-!
# `Correctness.Advice` — right-sizing advice

The cards are those of the workloads whose request is far above their use or whose use is close to their limit,
one for a workload's resource at most, those at risk first (`recommendations_exact`). What a card says of a workload
is what the pod table says of its pods (`pods_add_up`). And following the advice comes to an end: however often a
request is reclaimed and a limit raised, there is a card only finitely often (`advice_ends`).
-/

namespace EdgeCausal.Api

open Lib

/-! ## The keys -/

section Keys
variable {α β : Type} [LinearOrder α] [LinearOrder β] {maps : Resource → ResourceMaps (α × β)} {k : α × β}

theorem mem_unionKeys : k ∈ unionKeys maps ↔
    ∃ r, k ∈ (maps r).request.keys ∨ k ∈ (maps r).limit.keys ∨ k ∈ (maps r).use.keys := by
  unfold unionKeys
  rw [mem_sortOn, List.mem_dedup]
  simp only [List.mem_append]
  constructor
  · rintro (((h | h) | h) | ((h | h) | h))
    · exact ⟨.cpu, Or.inl h⟩
    · exact ⟨.cpu, Or.inr (Or.inl h)⟩
    · exact ⟨.cpu, Or.inr (Or.inr h)⟩
    · exact ⟨.memory, Or.inl h⟩
    · exact ⟨.memory, Or.inr (Or.inl h)⟩
    · exact ⟨.memory, Or.inr (Or.inr h)⟩
  · rintro ⟨r, h | h | h⟩
    · cases r
      · exact Or.inl (Or.inl (Or.inl h))
      · exact Or.inr (Or.inl (Or.inl h))
    · cases r
      · exact Or.inl (Or.inl (Or.inr h))
      · exact Or.inr (Or.inl (Or.inr h))
    · cases r
      · exact Or.inl (Or.inr h)
      · exact Or.inr (Or.inr h)

theorem unionKeys_nodup : (unionKeys maps).Nodup := by
  unfold unionKeys
  exact ((sortOn_perm _ _).nodup_iff).mpr (List.nodup_dedup _)

end Keys

/-! ## One card -/

section Card
variable {cfg : AdviceConfig} {wl : Workload} {req lim p95 : Option ℚ} {resource : Resource} {c : Card}

theorem given_eq_some {q : Option ℚ} {x : ℚ} : given q = some x ↔ q = some x ∧ x ≠ 0 := by
  unfold given
  rw [Option.filter_eq_some_iff]
  simp

theorem reclaimCard_eq_some : reclaimCard cfg wl req lim p95 resource = some c ↔
    ∃ r u, req = some r ∧ r ≠ 0 ∧ p95 = some u ∧ u < cfg.reclaimFrac * r ∧
      resource.minSave < r - reclaimTarget r u ∧
      c = ⟨.reclaim, wl, resource, "requests " ++ resource.fmt r ++ ", p95 " ++ resource.fmt u ++ " -> reclaim "
        ++ resource.fmt (r - reclaimTarget r u), req, lim, u, roundAt 3 (reclaimTarget r u)⟩ := by
  unfold reclaimCard
  constructor
  · intro h
    split at h
    · rename_i r u hr
      obtain ⟨rfl, hne⟩ := given_eq_some.mp hr
      split at h
      · rename_i hlow
        dsimp only at h
        split at h
        · rename_i hsave
          exact ⟨r, u, rfl, hne, rfl, hlow, hsave, (Option.some.inj h).symm⟩
        · exact absurd h (by simp)
      · exact absurd h (by simp)
    · exact absurd h (by simp)
  · rintro ⟨r, u, rfl, hne, rfl, hlow, hsave, rfl⟩
    rw [given_eq_some.mpr ⟨rfl, hne⟩]
    dsimp only
    rw [if_pos hlow, if_pos hsave]

theorem resizeCard_eq_some : resizeCard cfg wl req lim p95 resource = some c ↔
    ∃ l u, lim = some l ∧ l ≠ 0 ∧ p95 = some u ∧ cfg.resizeFrac * l < u ∧
      c = ⟨.resize, wl, resource, "p95 " ++ resource.fmt u ++ " near limit " ++ resource.fmt l
        ++ " -> resize up (throttle/OOM risk)", req, lim, u, roundAt 3 (l * (3 / 2))⟩ := by
  unfold resizeCard
  constructor
  · intro h
    split at h
    · rename_i l u hl
      obtain ⟨rfl, hne⟩ := given_eq_some.mp hl
      split at h
      · rename_i hhigh
        exact ⟨l, u, rfl, hne, rfl, hhigh, (Option.some.inj h).symm⟩
      · exact absurd h (by simp)
    · exact absurd h (by simp)
  · rintro ⟨l, u, rfl, hne, rfl, hhigh, rfl⟩
    rw [given_eq_some.mpr ⟨rfl, hne⟩]
    dsimp only
    rw [if_pos hhigh]

/-- A card is a reclaim, or a resize where there is no reclaim. -/
theorem rightsize_cases (h : rightsize cfg wl req lim p95 resource = some c) :
    reclaimCard cfg wl req lim p95 resource = some c ∨ resizeCard cfg wl req lim p95 resource = some c := by
  unfold rightsize at h
  exact (Option.or_eq_some_iff.mp h).imp_right And.right

/-- A card is about what it was made for, and only made when the use is known. -/
theorem rightsize_about (h : rightsize cfg wl req lim p95 resource = some c) :
    c.workload = wl ∧ c.resource = resource ∧ p95 = some c.p95 := by
  rcases rightsize_cases h with h | h
  · obtain ⟨r, u, -, -, hu, -, -, rfl⟩ := reclaimCard_eq_some.mp h
    exact ⟨rfl, rfl, hu⟩
  · obtain ⟨l, u, -, -, hu, -, rfl⟩ := resizeCard_eq_some.mp h
    exact ⟨rfl, rfl, hu⟩

/-- What a card's target keeps to: a reclaim leaves the use its headroom and saves what makes it worth it, a
    resize follows a use close to the limit. -/
def Card.Sound (cfg : AdviceConfig) (c : Card) : Prop :=
  match c.verb with
  | .reclaim => ∃ r, c.request = some r ∧ c.p95 < cfg.reclaimFrac * r ∧ roundAt 3 (c.p95 * headroom) ≤ c.target ∧
      c.target ≤ roundAt 3 (r - c.resource.minSave)
  | .resize => ∃ l, c.limit = some l ∧ cfg.resizeFrac * l < c.p95 ∧ c.target = roundAt 3 (l * (3 / 2))

theorem rightsize_sound (h : rightsize cfg wl req lim p95 resource = some c) : c.Sound cfg := by
  rcases rightsize_cases h with h | h
  · obtain ⟨r, u, hr, -, -, hlow, hsave, rfl⟩ := reclaimCard_eq_some.mp h
    refine ⟨r, hr, hlow, roundAt_mono 3 (le_max_left _ _), roundAt_mono 3 ?_⟩
    show reclaimTarget r u ≤ r - resource.minSave
    linarith
  · obtain ⟨l, u, hl, -, -, hhigh, rfl⟩ := resizeCard_eq_some.mp h
    exact ⟨l, hl, hhigh, rfl⟩

end Card

/-! ## All cards -/

section Recommend
variable {cfg : AdviceConfig} {prom : Prom}

/-- The cards before they are sorted. -/
def unsortedCards (cfg : AdviceConfig) (prom : Prom) : List (String × Card) :=
  (unionKeys (adviceMaps prom)).flatMap fun k =>
    [Resource.cpu, Resource.memory].filterMap fun resource =>
      (adviceFor cfg prom k resource).map fun c => (k.1, c)

theorem rightSizing_eq : (recommendations cfg prom).rightSizing = sortOn cardOrder (unsortedCards cfg prom) := by
  unfold recommendations unsortedCards
  split
  · rename_i hnone
    rw [hnone]
    rfl
  · rfl

/-- What a card is about. -/
def cardKey (c : String × Card) : (String × Workload) × Resource := ((c.1, c.2.workload), c.2.resource)

theorem adviceFor_about {k : String × Workload} {resource : Resource} {c : Card}
    (h : adviceFor cfg prom k resource = some c) : c.workload = k.2 ∧ c.resource = resource :=
  ⟨(rightsize_about h).1, (rightsize_about h).2.1⟩

theorem mem_unsortedCards {ns : String} {c : Card} :
    (ns, c) ∈ unsortedCards cfg prom ↔ adviceFor cfg prom (ns, c.workload) c.resource = some c := by
  unfold unsortedCards
  rw [List.mem_flatMap]
  constructor
  · rintro ⟨k, -, hmem⟩
    obtain ⟨resource, -, hcard⟩ := List.mem_filterMap.mp hmem
    obtain ⟨c', hc', heq⟩ := Option.map_eq_some_iff.mp hcard
    obtain ⟨rfl, rfl⟩ := Prod.mk.inj heq
    obtain ⟨hw, rfl⟩ := adviceFor_about hc'
    rw [hw]
    exact hc'
  · intro h
    -- the use is known, so the workload is among the keys
    have huse : (adviceMaps prom c.resource).use.get? (ns, c.workload) = some c.p95 := (rightsize_about h).2.2
    refine ⟨(ns, c.workload), mem_unionKeys.mpr ⟨c.resource, Or.inr (Or.inr ?_)⟩, ?_⟩
    · exact Dict.mem_keys_iff_get?.mpr ⟨_, huse⟩
    · refine List.mem_filterMap.mpr ⟨c.resource, ?_, by rw [h]; rfl⟩
      cases c.resource <;> simp

theorem unsortedCards_nodup : ((unsortedCards cfg prom).map cardKey).Nodup := by
  have hkeys : (unsortedCards cfg prom).map cardKey
      = (unionKeys (adviceMaps prom)).flatMap fun k =>
          [Resource.cpu, Resource.memory].filterMap fun resource =>
            (adviceFor cfg prom k resource).map fun _ => (k, resource) := by
    unfold unsortedCards
    rw [List.map_flatMap]
    congr 1
    funext k
    rw [List.map_filterMap]
    congr 1
    funext resource
    cases hc : adviceFor cfg prom k resource with
    | none => rfl
    | some c =>
        obtain ⟨hw, hr⟩ := adviceFor_about hc
        simp [cardKey, hw, hr]
  have hmem : ∀ k x, x ∈ ([Resource.cpu, Resource.memory].filterMap fun resource =>
      (adviceFor cfg prom k resource).map fun _ => (k, resource)) → x.1 = k := by
    intro k x hx
    obtain ⟨resource, -, hx⟩ := List.mem_filterMap.mp hx
    obtain ⟨c, -, rfl⟩ := Option.map_eq_some_iff.mp hx
    rfl
  rw [hkeys, List.nodup_flatMap]
  constructor
  · intro k _
    refine List.Nodup.filterMap ?_ (by decide)
    intro r r' x hx hx'
    obtain ⟨-, -, rfl⟩ := Option.map_eq_some_iff.mp hx
    obtain ⟨-, -, heq⟩ := Option.map_eq_some_iff.mp hx'
    exact (Prod.mk.inj heq).2.symm
  · refine unionKeys_nodup.imp ?_
    intro k k' hne x hx hx'
    exact hne ((hmem k x hx).symm.trans (hmem k' x hx'))

/-- **Recommendations are exact.** Whatever comes back for the queries, its values finite: a card is listed exactly when
    the pooled numbers of its workload's resource call for it, and keeps to them; a workload's resource has one card at
    most; and those at risk come first, within each verb the highest use first. -/
theorem recommendations_exact (cfg : AdviceConfig) (prom : Prom) :
    let cards := (recommendations cfg prom).rightSizing
    (∀ ns c, (ns, c) ∈ cards ↔ adviceFor cfg prom (ns, c.workload) c.resource = some c) ∧
    (∀ ns c, (ns, c) ∈ cards → c.Sound cfg) ∧
    (cards.map fun c => (c.1, c.2.workload, c.2.resource)).Nodup ∧
    cards.Pairwise fun a b =>
      (b.2.verb = .resize → a.2.verb = .resize) ∧ (a.2.verb = b.2.verb → b.2.p95 ≤ a.2.p95) := by
  intro cards
  have hcards : cards = sortOn cardOrder (unsortedCards cfg prom) := rightSizing_eq
  have hmem : ∀ ns c, (ns, c) ∈ cards ↔ adviceFor cfg prom (ns, c.workload) c.resource = some c := by
    intro ns c
    rw [hcards, mem_sortOn, mem_unsortedCards]
  refine ⟨hmem, ?_, ?_, ?_⟩
  · intro ns c hc
    exact rightsize_sound ((hmem ns c).mp hc)
  · have hperm := (sortOn_perm cardOrder (unsortedCards cfg prom)).map cardKey
    have hnodup : (cards.map cardKey).Nodup := by
      rw [hcards]
      exact hperm.nodup_iff.mpr unsortedCards_nodup
    have hassoc : (cards.map fun c => (c.1, c.2.workload, c.2.resource))
        = (cards.map cardKey).map (Equiv.prodAssoc _ _ _) := by
      rw [List.map_map]
      rfl
    rw [hassoc]
    exact hnodup.map (Equiv.injective _)
  · rw [hcards]
    refine (sortOn_pairwise cardOrder (unsortedCards cfg prom)).imp ?_
    intro a b hle
    unfold cardOrder at hle
    rw [Prod.Lex.toLex_le_toLex] at hle
    constructor
    · intro hb
      by_contra ha
      rw [if_neg ha, if_pos hb] at hle
      omega
    · intro hverb
      rw [hverb] at hle
      rcases hle with hlt | ⟨-, hle⟩
      · exact absurd hlt (lt_irrefl _)
      · exact neg_le_neg_iff.mp hle

end Recommend

/-! ## Pods and workloads -/

/-- The sum of some values, nothing when there is none. -/
def totalOf (l : List ℚ) : Option ℚ := if l = [] then none else some l.sum

theorem totalOf_perm {l l' : List ℚ} (h : l.Perm l') : totalOf l = totalOf l' := by
  unfold totalOf
  by_cases hnil : l = []
  · rw [if_pos hnil, if_pos (List.nil_perm.mp (hnil ▸ h))]
  · have hnil' : l' ≠ [] := fun h' => hnil (List.perm_nil.mp (h' ▸ h))
    rw [if_neg hnil, if_neg hnil', h.sum_eq]

/-- A dictionary read along any list of its keys. -/
theorem filterMap_get?_perm {κ α : Type} [DecidableEq κ] {d : Dict κ α} {keys : List κ} (hnd : keys.Nodup)
    (hall : ∀ k ∈ d.keys, k ∈ keys) (P : κ → Bool) :
    ((keys.filter P).filterMap d.get?).Perm ((d.entries.filter fun e => P e.1).map Prod.snd) := by
  have hentries : ((keys.filter P).filterMap fun k => (d.get? k).map fun v => (k, v)).Perm
      (d.entries.filter fun e => P e.1) := by
    refine (List.perm_ext_iff_of_nodup ?_ (d.nodup.of_map.filter _)).mpr ?_
    · refine List.Nodup.filterMap ?_ (hnd.filter P)
      intro k k' x hx hx'
      obtain ⟨v, -, rfl⟩ := Option.map_eq_some_iff.mp hx
      obtain ⟨v', -, heq⟩ := Option.map_eq_some_iff.mp hx'
      exact (Prod.mk.inj heq).1.symm
    · rintro ⟨k, v⟩
      rw [List.mem_filterMap, List.mem_filter, ← Dict.get?_eq_some_iff]
      constructor
      · rintro ⟨k', hk', hv⟩
        obtain ⟨v', hv', heq⟩ := Option.map_eq_some_iff.mp hv
        obtain ⟨rfl, rfl⟩ := Prod.mk.inj heq
        exact ⟨hv', (List.mem_filter.mp hk').2⟩
      · rintro ⟨hv, hP⟩
        have hk : k ∈ keys := hall k (Dict.mem_keys_iff_get?.mpr ⟨v, hv⟩)
        exact ⟨k, List.mem_filter.mpr ⟨hk, hP⟩, by rw [hv]; rfl⟩
  have hvalues := hentries.map Prod.snd
  rw [List.map_filterMap] at hvalues
  simpa using hvalues

/-- What a workload is given of a query is the sum over its pods. -/
theorem promMap_eq_totalOf (reply : PromReply) {keys : List (String × Pod)} (hnd : keys.Nodup)
    (hall : ∀ k ∈ (promPodMap reply).keys, k ∈ keys) (k' : String × Workload) :
    (promMap reply).get? k' = totalOf ((keys.filter fun k => owner k = k').filterMap (promPodMap reply).get?) := by
  rw [totalOf_perm (filterMap_get?_perm hnd hall fun k => decide (owner k = k'))]
  unfold promMap promPodMap promSum
  cases reply with
  | error e => rfl
  | ok series =>
      dsimp only
      rw [pool_pool owner Prod.fst Prod.snd, get?_pool]
      unfold totalOf under
      simp only [List.map_eq_nil_iff]
      rfl

/-- The allocation of a resource in a row. -/
def PodResourceRow.of (row : PodResourceRow) : Resource → Allocation
  | .cpu => row.cpu
  | .memory => row.mem

/-- The rows of a workload's pods. -/
def rowsOf (out : PodResources) (ns : String) (wl : Workload) : List PodResourceRow :=
  out.pods.filter fun row => row.ns = ns ∧ row.workload = wl

theorem rowsOf_podResources (prom : Prom) (sel ns : String) (wl : Workload) :
    rowsOf (podResources prom sel) ns wl = ((unionKeys (podMaps prom sel)).filter fun k => owner k = (ns, wl)).map
      fun k => ⟨k.1, k.2, workload k.2, allocation prom sel .cpu k, allocation prom sel .memory k⟩ := by
  have hpods : (podResources prom sel).pods = (unionKeys (podMaps prom sel)).map
      fun k => ⟨k.1, k.2, workload k.2, allocation prom sel .cpu k, allocation prom sel .memory k⟩ := by
    unfold podResources
    split
    · rename_i hnone
      rw [hnone]
      rfl
    · rfl
  unfold rowsOf
  rw [hpods, List.filter_map]
  congr 1
  refine List.filter_congr ?_
  intro k _
  simp [owner]

/-- **The pod table and the advice agree.** Whatever comes back for the queries, its values finite: the request and the
    limit that a workload's card is made from are the sums over its rows in the table of the factory's pods, and it has
    none exactly when no row has one. -/
theorem pods_add_up (prom : Prom) (ns : String) (wl : Workload) (resource : Resource) :
    let rows := rowsOf (podResources prom "factory-.*") ns wl
    (adviceMaps prom resource).request.get? (ns, wl)
      = totalOf (rows.filterMap fun row => (row.of resource).request) ∧
    (adviceMaps prom resource).limit.get? (ns, wl) = totalOf (rows.filterMap fun row => (row.of resource).limit) := by
  intro rows
  have hrows : rows = _ := rowsOf_podResources prom "factory-.*" ns wl
  have hnd : (unionKeys (podMaps prom "factory-.*")).Nodup := unionKeys_nodup
  rw [hrows, List.filterMap_map, List.filterMap_map]
  constructor
  · refine (promMap_eq_totalOf _ hnd ?_ (ns, wl)).trans ?_
    · exact fun k hk => mem_unionKeys.mpr ⟨resource, Or.inl hk⟩
    · cases resource <;> rfl
  · refine (promMap_eq_totalOf _ hnd ?_ (ns, wl)).trans ?_
    · exact fun k hk => mem_unionKeys.mpr ⟨resource, Or.inr (Or.inl hk)⟩
    · cases resource <;> rfl

/-! ## Following the advice -/

/-- What a workload's resource is given. -/
structure Grant where
  request : Option ℚ
  limit : Option ℚ

/-- The grant a card asks for. -/
def Card.apply (c : Card) (g : Grant) : Grant :=
  match c.verb with
  | .reclaim => { g with request := some c.target }
  | .resize => { g with limit := some c.target }

section Follow
variable (cfg : AdviceConfig) (wl : Workload) (u : ℚ) (resource : Resource)

/-- The card of a grant, at a steady use. -/
def cardOf (g : Grant) : Option Card := rightsize cfg wl g.request g.limit (some u) resource

/-- One round: the card is followed, or there is none. -/
def follow (g : Grant) : Grant :=
  match cardOf cfg wl u resource g with
  | some c => c.apply g
  | none => g

variable {cfg wl u resource} {g : Grant}

variable (cfg u resource) in
/-- The request is reclaimed. -/
def Reclaims (req : Option ℚ) : Prop :=
  ∃ r, req = some r ∧ r ≠ 0 ∧ u < cfg.reclaimFrac * r ∧ resource.minSave < r - reclaimTarget r u

variable (cfg u) in
/-- The limit is raised. -/
def Resizes (lim : Option ℚ) : Prop := ∃ l, lim = some l ∧ l ≠ 0 ∧ cfg.resizeFrac * l < u

theorem reclaimCard_eq_none (h : ¬ Reclaims cfg u resource g.request) :
    reclaimCard cfg wl g.request g.limit (some u) resource = none := by
  by_contra hne
  obtain ⟨c, hc⟩ := Option.ne_none_iff_exists'.mp hne
  obtain ⟨r, u', hr, hr0, hu, hlow, hsave, -⟩ := reclaimCard_eq_some.mp hc
  obtain rfl := Option.some.inj hu
  exact h ⟨r, hr, hr0, hlow, hsave⟩

theorem cardOf_eq_none (hreclaim : ¬ Reclaims cfg u resource g.request) (hresize : ¬ Resizes cfg u g.limit) :
    cardOf cfg wl u resource g = none := by
  have hnone : resizeCard cfg wl g.request g.limit (some u) resource = none := by
    by_contra hne
    obtain ⟨c, hc⟩ := Option.ne_none_iff_exists'.mp hne
    obtain ⟨l, u', hl, hl0, hu, hhigh, -⟩ := resizeCard_eq_some.mp hc
    obtain rfl := Option.some.inj hu
    exact hresize ⟨l, hl, hl0, hhigh⟩
  unfold cardOf rightsize
  rw [reclaimCard_eq_none hreclaim, hnone]
  rfl

/-- A round with a request to reclaim. -/
theorem follow_reclaim {r : ℚ} (hr : g.request = some r) (hr0 : r ≠ 0) (hlow : u < cfg.reclaimFrac * r)
    (hsave : resource.minSave < r - reclaimTarget r u) :
    follow cfg wl u resource g = { g with request := some (roundAt 3 (reclaimTarget r u)) } := by
  have hcard : reclaimCard cfg wl g.request g.limit (some u) resource = some _ :=
    reclaimCard_eq_some.mpr ⟨r, u, hr, hr0, rfl, hlow, hsave, rfl⟩
  unfold follow cardOf rightsize
  rw [hcard]
  rfl

/-- A round with a limit to raise. -/
theorem follow_resize (hreclaim : ¬ Reclaims cfg u resource g.request) {l : ℚ} (hl : g.limit = some l) (hl0 : l ≠ 0)
    (hhigh : cfg.resizeFrac * l < u) :
    follow cfg wl u resource g = { g with limit := some (roundAt 3 (l * (3 / 2))) } := by
  have hcard : resizeCard cfg wl g.request g.limit (some u) resource = some _ :=
    resizeCard_eq_some.mpr ⟨l, u, hl, hl0, rfl, hhigh, rfl⟩
  unfold follow cardOf rightsize
  rw [reclaimCard_eq_none hreclaim, hcard]
  rfl

/-- A reclaimed request is not negative, and lower by more than rounding moves it. -/
theorem reclaimed_lt {r : ℚ} (hsave : resource.minSave < r - reclaimTarget r u) :
    0 ≤ roundAt 3 (reclaimTarget r u) ∧ roundAt 3 (reclaimTarget r u) ≤ r - 1 / 25 := by
  have hmin : (5 : ℚ) / 100 ≤ resource.minSave := by
    cases resource <;> norm_num [Resource.minSave]
  have htenth : r * (1 / 10) ≤ reclaimTarget r u := le_max_right _ _
  have hr : 0 < r := by linarith
  have hnear := (roundHalfEven_near (reclaimTarget r u * 10 ^ 3)).2
  constructor
  · rw [← roundAt_zero (K := ℚ) 3]
    exact roundAt_mono 3 (by linarith)
  · unfold roundAt
    rw [div_le_iff₀ (by norm_num)]
    linarith

/-- Half as much again, rounded, is 0 or above the whole part. -/
theorem raised_gt {x : ℚ} (hx : 0 ≤ x) :
    roundHalfEven (x * (3 / 2)) = 0 ∨ ⌊x⌋ < roundHalfEven (x * (3 / 2)) := by
  rcases lt_or_ge x 1 with h1 | h1
  · have hfloor : ⌊x⌋ = 0 := Int.floor_eq_zero_iff.mpr ⟨hx, h1⟩
    have hmono : roundHalfEven ((0 : ℤ) : ℚ) ≤ roundHalfEven (x * (3 / 2)) :=
      roundHalfEven_mono (by push_cast; linarith)
    rw [roundHalfEven_intCast] at hmono
    omega
  right
  rcases lt_or_ge x 2 with h2 | h2
  · -- below 2 the half is kept by rounding to the even side
    have hfloor : ⌊x⌋ = 1 := Int.floor_eq_iff.mpr ⟨by exact_mod_cast h1, by push_cast; linarith⟩
    have hmono : roundHalfEven (3 / 2 : ℚ) ≤ roundHalfEven (x * (3 / 2)) := roundHalfEven_mono (by linarith)
    have htwo : roundHalfEven (3 / 2 : ℚ) = 2 := by decide +kernel
    omega
  · have hnear := (roundHalfEven_near (x * (3 / 2))).1
    rw [Int.floor_lt]
    linarith

variable (cfg u) in
/-- How many thousandths the limit is below what the use asks for. -/
def shortfall (lim : Option ℚ) : ℕ :=
  match given lim with
  | some l => (⌈u / cfg.resizeFrac * 10 ^ 3⌉ - ⌊l * 10 ^ 3⌋).toNat
  | none => 0

variable (cfg u) in
/-- How many rounds there are at most: a reclaim takes 1/25 of the request, a resize a thousandth of the shortfall. -/
def rounds (g : Grant) : ℕ := ⌈25 * g.request.getD 0⌉₊ + shortfall cfg u g.limit

theorem shortfall_raised (hcfg : 0 < cfg.resizeFrac) {l : ℚ} (hl : 0 < l) (hhigh : cfg.resizeFrac * l < u) :
    shortfall cfg u (some (roundAt 3 (l * (3 / 2)))) < shortfall cfg u (some l) := by
  have hshort : ⌊l * 10 ^ 3⌋ < ⌈u / cfg.resizeFrac * 10 ^ 3⌉ := by
    have hlu : l < u / cfg.resizeFrac := by rwa [lt_div_iff₀ hcfg, mul_comm]
    rw [Int.lt_ceil]
    exact (Int.floor_le _).trans_lt (mul_lt_mul_of_pos_right hlu (by norm_num))
  have hold : shortfall cfg u (some l) = (⌈u / cfg.resizeFrac * 10 ^ 3⌉ - ⌊l * 10 ^ 3⌋).toNat := by
    unfold shortfall
    rw [given_eq_some.mpr ⟨rfl, hl.ne'⟩]
  have hscale : l * (3 / 2) * 10 ^ 3 = l * 10 ^ 3 * (3 / 2) := by ring
  rw [hold]
  rcases raised_gt (show 0 ≤ l * 10 ^ 3 by positivity) with hzero | hgt
  · -- a limit so small that it is raised to 0 counts as none
    have hnone : shortfall cfg u (some (roundAt 3 (l * (3 / 2)))) = 0 := by
      have hround : roundAt 3 (l * (3 / 2)) = 0 := by
        unfold roundAt
        rw [hscale, hzero]
        norm_num
      rw [hround]
      rfl
    omega
  · have hfloor : ⌊roundAt 3 (l * (3 / 2)) * 10 ^ 3⌋ = roundHalfEven (l * 10 ^ 3 * (3 / 2)) := by
      unfold roundAt
      rw [div_mul_cancel₀ _ (by norm_num), Int.floor_intCast, hscale]
    have hnew : shortfall cfg u (some (roundAt 3 (l * (3 / 2))))
        ≤ (⌈u / cfg.resizeFrac * 10 ^ 3⌉ - ⌊roundAt 3 (l * (3 / 2)) * 10 ^ 3⌋).toNat := by
      unfold shortfall given
      by_cases hz : roundAt 3 (l * (3 / 2)) = 0
      · rw [hz]
        exact Nat.zero_le _
      · rw [Option.filter_some, if_pos (by simpa using hz)]
    rw [hfloor] at hnew
    omega

/-- A round with a card brings the end closer, and leaves no limit below 0. -/
theorem follow_lt (hcfg : 0 < cfg.resizeFrac) (hlim : ∀ l, g.limit = some l → 0 ≤ l)
    (hcard : cardOf cfg wl u resource g ≠ none) :
    rounds cfg u (follow cfg wl u resource g) < rounds cfg u g ∧
      ∀ l, (follow cfg wl u resource g).limit = some l → 0 ≤ l := by
  by_cases hreclaim : Reclaims cfg u resource g.request
  · obtain ⟨r, hr, hr0, hlow, hsave⟩ := hreclaim
    rw [follow_reclaim hr hr0 hlow hsave]
    refine ⟨?_, hlim⟩
    obtain ⟨hpos, hle⟩ := reclaimed_lt hsave
    have hceil : ⌈25 * roundAt 3 (reclaimTarget r u)⌉₊ + 1 ≤ ⌈25 * r⌉₊ := by
      rw [← Nat.ceil_add_one (by positivity)]
      exact Nat.ceil_le_ceil (by linarith)
    unfold rounds
    rw [hr]
    simp only [Option.getD_some]
    omega
  by_cases hresize : Resizes cfg u g.limit
  · obtain ⟨l, hl, hl0, hhigh⟩ := hresize
    rw [follow_resize hreclaim hl hl0 hhigh]
    have hpos : 0 < l := lt_of_le_of_ne (hlim l hl) (Ne.symm hl0)
    constructor
    · have hlt := shortfall_raised hcfg hpos hhigh
      unfold rounds
      rw [hl]
      dsimp only
      omega
    · intro l' hl'
      obtain rfl := Option.some.inj hl'
      rw [← roundAt_zero (K := ℚ) 3]
      exact roundAt_mono 3 (by positivity)
  · exact absurd (cardOf_eq_none hreclaim hresize) hcard

/-- Without a card nothing changes any more. -/
theorem follow_iterate_of_none (h : cardOf cfg wl u resource g = none) (n : ℕ) :
    (follow cfg wl u resource)^[n] g = g := by
  have hfix : follow cfg wl u resource g = g := by
    unfold follow
    rw [h]
  exact Function.iterate_fixed hfix n

end Follow

/-- **Following the advice ends.** At a steady use, from any request and any limit that is not negative: after
    finitely many rounds of doing what the card asks for there is no card, then or later. A reclaim is followed 25
    times the request at most, a resize once for each thousandth that the limit is short. -/
theorem advice_ends (cfg : AdviceConfig) (hcfg : 0 < cfg.resizeFrac) (wl : Workload) (u : ℚ) (resource : Resource)
    (g : Grant) (hlim : ∀ l, g.limit = some l → 0 ≤ l) :
    ∃ n ≤ rounds cfg u g, ∀ k, n ≤ k → cardOf cfg wl u resource ((follow cfg wl u resource)^[k] g) = none := by
  -- each round with a card lowers the number of rounds left
  induction hr : rounds cfg u g using Nat.strong_induction_on generalizing g with
  | _ r ih =>
      by_cases hcard : cardOf cfg wl u resource g = none
      · refine ⟨0, Nat.zero_le _, ?_⟩
        intro k _
        rw [follow_iterate_of_none hcard]
        exact hcard
      · obtain ⟨hlt, hlim'⟩ := follow_lt hcfg hlim hcard
        obtain ⟨n, hn, hend⟩ := ih _ (hr ▸ hlt) _ hlim' rfl
        refine ⟨n + 1, by omega, ?_⟩
        intro k hk
        obtain ⟨k, rfl⟩ : ∃ j, k = j + 1 := ⟨k - 1, by omega⟩
        rw [Function.iterate_succ_apply]
        exact hend k (by omega)

theorem advice_ends_idle :
    ∃ n ≤ rounds .default (1 / 10) ⟨some 2, some (1 / 20)⟩, ∀ k, n ≤ k →
      cardOf .default "line-press" (1 / 10) .cpu
        ((follow .default "line-press" (1 / 10) .cpu)^[k] ⟨some 2, some (1 / 20)⟩) = none :=
  advice_ends .default (by norm_num [AdviceConfig.default]) "line-press" (1 / 10) .cpu ⟨some 2, some (1 / 20)⟩ (by
    intro l hl
    obtain rfl := Option.some.inj hl
    norm_num)

end EdgeCausal.Api
