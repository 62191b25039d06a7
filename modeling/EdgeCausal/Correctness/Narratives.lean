import EdgeCausal.Api.Gateway

/-!
# `Correctness.Narratives` — one cache, many requests

Requests for the narrative share a cache that one of them may clear while another is about to read it. Whatever the
order of their steps: what is served from the cache was rendered for a verdict of the same signature, a request fails
for want of an entry only when another cleared the cache under it, and the cache holds no more verdicts than there
were ever requests at once between clearing and writing (`narratives_concurrent`). One at a time, requests are served
as in the sequential account (`narratives_serial`).
-/

namespace EdgeCausal.Api

open Lib

/-! ## One step -/

/-- What a step of a request can do. -/
inductive Goes (primary : Signal) (model : String) (cache : SharedCache) :
    Stage → SharedCache → Stage → List Deed → Prop
  | unreachable (e : HTTPException) : Goes primary model cache .fetching cache .done [.failed (.http e)]
  | rootless {g : NormalGraph} (h : g.root = []) (ts : String) :
      Goes primary model cache .fetching cache .done [.answered g (rootlessReply primary g ts)]
  | unsorted : Goes primary model cache .fetching cache .done [.failed .typeError]
  | fetched {g : NormalGraph} {sig : VerdictSignature} (h : g.root ≠ []) (hsig : verdictSignature g = some sig) :
      Goes primary model cache .fetching cache (.looking g sig) []
  | hit {g : NormalGraph} {sig : VerdictSignature} {out : Reply} (h : cache.get? sig = some out) :
      Goes primary model cache (.looking g sig) cache (.reading g sig) [.looked sig true]
  | missed {g : NormalGraph} {sig : VerdictSignature} :
      Goes primary model cache (.looking g sig) cache (.rendering g sig) [.looked sig false]
  | read {g : NormalGraph} {sig : VerdictSignature} {out : Reply} (h : cache.get? sig = some out) :
      Goes primary model cache (.reading g sig) cache .done [.answered g (woven g out)]
  | gone {g : NormalGraph} {sig : VerdictSignature} (h : cache.get? sig = none) :
      Goes primary model cache (.reading g sig) cache .done [.failed .keyError]
  | rendered {g : NormalGraph} {sig : VerdictSignature} (text ts : String) :
      Goes primary model cache (.rendering g sig) cache (.clearing g sig ⟨text, .llm, some model, ts⟩)
        [.rendered g ⟨text, .llm, some model, ts⟩]
  | fellBack {g : NormalGraph} {sig : VerdictSignature} (ts : String) :
      Goes primary model cache (.rendering g sig) cache .done
        [.answered g (woven g ⟨templateNarrative primary g, .fallback, none, ts⟩)]
  | cleared {g : NormalGraph} {sig : VerdictSignature} {out : Reply} :
      Goes primary model cache (.clearing g sig out) ∅ (.storing g sig out) [.cleared]
  | stored {g : NormalGraph} {sig : VerdictSignature} {out : Reply} :
      Goes primary model cache (.storing g sig out) (cache.set sig out) .done
        [.stored sig out, .answered g (woven g out)]

section Step
variable {primary : Signal} {model : String} {cache cache' : SharedCache} {st st' : Stage} {out : List Deed}

theorem fetchedStep_goes {reply : Except String NormalGraph} {ts : String} :
    Goes primary model cache .fetching cache (fetchedStep primary reply ts).1 (fetchedStep primary reply ts).2 := by
  unfold fetchedStep
  cases reply with
  | error e => exact .unreachable _
  | ok g =>
      by_cases hroot : g.root = []
      · simp only [hroot, if_true]
        exact .rootless hroot ts
      · simp only [hroot, if_false]
        cases hsig : verdictSignature g with
        | none => exact .unsorted
        | some sig => exact .fetched hroot hsig

theorem narrativeStep_goes {p : Progress} (h : narrativeStep primary model cache st p = some (cache', st', out)) :
    Goes primary model cache st cache' st' out := by
  unfold narrativeStep at h
  split at h
  · rename_i reply ts
    obtain ⟨rfl, hstep⟩ := Prod.mk.inj (Option.some.inj h)
    obtain ⟨hst, hout⟩ := Prod.mk.inj hstep
    exact hst ▸ hout ▸ fetchedStep_goes
  · split at h
    · obtain ⟨rfl, rfl, rfl⟩ := by simpa using h
      exact .hit ‹_›
    · obtain ⟨rfl, rfl, rfl⟩ := by simpa using h
      exact .missed
  · split at h
    · obtain ⟨rfl, rfl, rfl⟩ := by simpa using h
      exact .read ‹_›
    · obtain ⟨rfl, rfl, rfl⟩ := by simpa using h
      exact .gone ‹_›
  · dsimp only at h
    split at h
    · obtain ⟨rfl, rfl, rfl⟩ := by simpa [freshReply] using h
      exact .rendered _ _
    · obtain ⟨rfl, rfl, rfl⟩ := by simpa [freshReply] using h
      exact .fellBack _
  · obtain ⟨rfl, rfl, rfl⟩ := by simpa using h
    exact .cleared
  · obtain ⟨rfl, rfl, rfl⟩ := by simpa using h
    exact .stored
  · exact absurd h (by simp)

end Step

/-! ## What is asserted -/

/-- A graph with a root and a signature. -/
def Signed (g : NormalGraph) (sig : VerdictSignature) : Prop := g.root ≠ [] ∧ verdictSignature g = some sig

/-- The model rendered it for a verdict of that signature. -/
def RenderedFor (log : List (ℕ × Deed)) (sig : VerdictSignature) (out : Reply) : Prop :=
  ∃ i g, (i, .rendered g out) ∈ log ∧ verdictSignature g = some sig

/-- Since it found its verdict in the cache, another request has cleared it. -/
def ClearedUnder (log : List (ℕ × Deed)) (i : ℕ) (sig : VerdictSignature) : Prop :=
  ∃ before after j, log = before ++ (i, .looked sig true) :: after ∧ j ≠ i ∧ (j, .cleared) ∈ after

/-- What a request serves, the forecast aside: the model's reply or the template, for its own graph, or what was
    rendered for a graph of the same signature and found in the cache. -/
inductive Served.Base (primary : Signal) (log : List (ℕ × Deed)) (i : ℕ) (g : NormalGraph) : Reply → Prop
  | own {out : Reply} (h : (i, .rendered g out) ∈ log) : Base primary log i g out
  | fallback (ts : String) : Base primary log i g ⟨templateNarrative primary g, .fallback, none, ts⟩
  | cached {sig : VerdictSignature} {out : Reply} (hsig : verdictSignature g = some sig)
      (hlooked : (i, .looked sig true) ∈ log) (h : RenderedFor log sig out) : Base primary log i g out

/-- What accounts for a deed. -/
def Accounted (primary : Signal) (before : List (ℕ × Deed)) : ℕ × Deed → Prop
  | (i, .answered g out) =>
      (g.root = [] ∧ ∃ ts, out = rootlessReply primary g ts) ∨
        (g.root ≠ [] ∧ ∃ base, Served.Base primary before i g base ∧ out = woven g base)
  | (i, .failed .keyError) => ∃ sig, ClearedUnder before i sig
  | (_, .stored sig out) => RenderedFor before sig out
  | _ => True

/-- What a request may assert where it stands. -/
def At (i : ℕ) (st : Stage) (cache : SharedCache) (log : List (ℕ × Deed)) : Prop :=
  match st with
  | .fetching | .done => True
  | .looking g sig | .rendering g sig => Signed g sig
  | .reading g sig =>
      Signed g sig ∧ (i, .looked sig true) ∈ log ∧ ((∃ out, cache.get? sig = some out) ∨ ClearedUnder log i sig)
  | .clearing g sig out | .storing g sig out => Signed g sig ∧ (i, .rendered g out) ∈ log

/-- The end of a request. -/
def Deed.final : Deed → Bool
  | .answered _ _ => true
  | .failed _ => true
  | _ => false

/-- How often a request has ended. -/
def endings (log : List (ℕ × Deed)) (i : ℕ) : ℕ := log.countP fun x => x.1 = i ∧ x.2.final

/-- How often it has to have ended, where it stands. -/
def Stage.endings : Stage → ℕ
  | .done => 1
  | _ => 0

/-- What holds of the cache. -/
structure CacheInv (primary : Signal) (cache : SharedCache) (log : List (ℕ × Deed)) : Prop where
  accounted : Each (Accounted primary) log
  rendered : ∀ sig out, cache.get? sig = some out → RenderedFor log sig out

section Asserted
variable {primary : Signal} {model : String} {log : List (ℕ × Deed)} {i j : ℕ} {sig : VerdictSignature} {out : Reply}

theorem RenderedFor.mono (h : RenderedFor log sig out) (out' : List (ℕ × Deed)) :
    RenderedFor (log ++ out') sig out := by
  obtain ⟨i, g, hmem, hsig⟩ := h
  exact ⟨i, g, List.mem_append_left _ hmem, hsig⟩

theorem ClearedUnder.mono (h : ClearedUnder log i sig) (out' : List (ℕ × Deed)) : ClearedUnder (log ++ out') i sig := by
  obtain ⟨before, after, j, rfl, hj, hmem⟩ := h
  refine ⟨before, after ++ out', j, ?_, hj, List.mem_append_left _ hmem⟩
  rw [List.append_assoc, List.cons_append]

theorem clearedUnder_concat (hlooked : (i, .looked sig true) ∈ log) (hj : j ≠ i) :
    ClearedUnder (log ++ [(j, .cleared)]) i sig := by
  obtain ⟨before, after, rfl⟩ := List.append_of_mem hlooked
  refine ⟨before, after ++ [(j, .cleared)], j, ?_, hj, by simp⟩
  rw [List.append_assoc, List.cons_append]

theorem CacheInv.concat {cache : SharedCache} (h : CacheInv primary cache log) {x : ℕ × Deed}
    (hx : Accounted primary log x) : CacheInv primary cache (log ++ [x]) :=
  ⟨h.accounted.concat hx, fun sig out hget => (h.rendered sig out hget).mono _⟩

/-- **A request keeps what it asserts, and the cache what it holds.** -/
theorem At.step {cache cache' : SharedCache} {st st' : Stage} {out : List Deed} (hinv : CacheInv primary cache log)
    (hat : At i st cache log) (hgoes : Goes primary model cache st cache' st' out) :
    CacheInv primary cache' (log ++ out.map (Prod.mk i)) ∧ At i st' cache' (log ++ out.map (Prod.mk i)) := by
  cases hgoes with
  | unreachable e => exact ⟨hinv.concat trivial, trivial⟩
  | rootless hroot ts => exact ⟨hinv.concat (Or.inl ⟨hroot, ts, rfl⟩), trivial⟩
  | unsorted => exact ⟨hinv.concat trivial, trivial⟩
  | fetched hroot hsig =>
      rw [List.map_nil, List.append_nil]
      exact ⟨hinv, hroot, hsig⟩
  | hit hget => exact ⟨hinv.concat trivial, hat, by simp, Or.inl ⟨_, hget⟩⟩
  | missed => exact ⟨hinv.concat trivial, hat⟩
  | @read g sig out hget =>
      obtain ⟨⟨hroot, hsig⟩, hlooked, -⟩ := hat
      have hbase : Served.Base primary log i g out := .cached hsig hlooked (hinv.rendered sig out hget)
      exact ⟨hinv.concat (Or.inr ⟨hroot, out, hbase, rfl⟩), trivial⟩
  | gone hget =>
      obtain ⟨-, -, ⟨out, hout⟩ | hcleared⟩ := hat
      · rw [hget] at hout
        exact absurd hout (by simp)
      · exact ⟨hinv.concat ⟨_, hcleared⟩, trivial⟩
  | rendered text ts => exact ⟨hinv.concat trivial, hat, by simp⟩
  | fellBack ts => exact ⟨hinv.concat (Or.inr ⟨hat.1, _, .fallback ts, rfl⟩), trivial⟩
  | cleared =>
      have hempty : CacheInv primary ∅ log := ⟨hinv.accounted, fun sig out hget => absurd hget (by simp)⟩
      exact ⟨hempty.concat trivial, hat.1, List.mem_append_left _ hat.2⟩
  | @stored g sig out =>
      obtain ⟨⟨hroot, hsig⟩, hrendered⟩ := hat
      have hfor : RenderedFor log sig out := ⟨i, g, hrendered, hsig⟩
      have hset : CacheInv primary (cache.set sig out) log := by
        refine ⟨hinv.accounted, ?_⟩
        intro sig' out' hget
        rw [Dict.get?_set] at hget
        split at hget
        · rename_i heq
          obtain rfl := Option.some.inj hget
          exact heq ▸ hfor
        · exact hinv.rendered sig' out' hget
      have hbase : Served.Base primary (log ++ [(i, .stored sig out)]) i g out :=
        .own (List.mem_append_left _ hrendered)
      have hstored : CacheInv primary (cache.set sig out) (log ++ [(i, .stored sig out)]) := hset.concat hfor
      have hanswered : CacheInv primary (cache.set sig out)
          (log ++ [(i, .stored sig out)] ++ [(i, .answered g (woven g out))]) :=
        hstored.concat (Or.inr ⟨hroot, out, hbase, rfl⟩)
      rw [List.append_assoc] at hanswered
      exact ⟨hanswered, trivial⟩

/-- **The others do not take it away**: what one clears, another knows to have been cleared. -/
theorem At.other {cache cache' : SharedCache} {st st' : Stage} {out : List Deed} {l : Stage} (hij : i ≠ j)
    (hgoes : Goes primary model cache st cache' st' out) (hat : At j l cache log) :
    At j l cache' (log ++ out.map (Prod.mk i)) := by
  cases l with
  | fetching => trivial
  | done => trivial
  | looking g sig => exact hat
  | rendering g sig => exact hat
  | clearing g sig out => exact ⟨hat.1, List.mem_append_left _ hat.2⟩
  | storing g sig out => exact ⟨hat.1, List.mem_append_left _ hat.2⟩
  | reading g sig =>
      obtain ⟨hsigned, hlooked, hcache⟩ := hat
      refine ⟨hsigned, List.mem_append_left _ hlooked, ?_⟩
      rcases hcache with ⟨out, hget⟩ | hcleared
      · cases hgoes with
        | cleared => exact Or.inr (clearedUnder_concat hlooked hij)
        | stored =>
            refine Or.inl ?_
            rw [Dict.get?_set]
            split
            · exact ⟨_, rfl⟩
            · exact ⟨out, hget⟩
        | _ => exact Or.inl ⟨out, hget⟩
      · exact Or.inr (hcleared.mono _)

theorem endings_map {out : List Deed} :
    endings (log ++ out.map (Prod.mk i)) j = endings log j + if i = j then out.countP Deed.final else 0 := by
  unfold endings
  rw [List.countP_append, List.countP_map]
  by_cases hij : i = j
  · simp [hij, Function.comp_def]
  · simp [hij, Function.comp_def]

/-- **A request ends once**, with the step that ends it. -/
theorem endings_step {cache cache' : SharedCache} {st st' : Stage} {out : List Deed}
    (hgoes : Goes primary model cache st cache' st' out) (h : endings log i = st.endings) :
    endings (log ++ out.map (Prod.mk i)) i = st'.endings := by
  rw [endings_map, h, if_pos rfl]
  cases hgoes <;> rfl

end Asserted

section Run
variable (primary : Signal) (model : String)

theorem gateway_asserted (events : List GatewayEvent) :
    Asserted (CacheInv primary) (fun i st cache log => At i st cache log ∧ endings log i = st.endings)
      (gateway primary model events).1 (gateway primary model events).2 := by
  refine threads_rule ?_ ?_ ?_ ?_
  · refine ⟨by simp, ⟨each_nil, fun sig out hget => absurd hget (by simp)⟩, ?_⟩
    intro i k hk
    exact absurd hk (by simp)
  · intro k hk i cache log hnew _
    obtain ⟨ev, -, hev⟩ := List.mem_map.mp hk
    cases ev with
    | request =>
        obtain rfl : Stage.fetching = k := by simpa [GatewayEvent.turn] using hev
        refine ⟨trivial, List.countP_eq_zero.mpr ?_⟩
        intro x hx
        simp [hnew x hx]
    | progress i p => exact absurd hev (by simp [GatewayEvent.turn])
  · intro i st p cache cache' st' out log hinv hat hstep
    have hgoes := narrativeStep_goes hstep
    obtain ⟨hcache, hnext⟩ := hat.1.step hinv hgoes
    exact ⟨hcache, hnext, endings_step hgoes hat.2⟩
  · intro i st p cache cache' st' out log j l _ _ hstep hij hl
    refine ⟨hl.1.other hij (narrativeStep_goes hstep), ?_⟩
    rw [endings_map, if_neg hij]
    exact hl.2

/-! ## How much is cached -/

/-- Between clearing the cache and writing to it. -/
def storingWeight : Stage → ℕ
  | .storing _ _ _ => 1
  | _ => 0

theorem length_set_le (cache : SharedCache) (sig : VerdictSignature) (out : Reply) :
    (cache.set sig out).entries.length ≤ cache.entries.length + 1 := by
  have hkeys : ∀ d : SharedCache, d.keys.length = d.entries.length := fun d => List.length_map _
  rw [← hkeys, ← hkeys]
  by_cases hmem : sig ∈ cache.keys
  · rw [Dict.keys_set_of_mem hmem]
    exact Nat.le_succ _
  · rw [Dict.keys_set_of_not_mem hmem, List.length_append]
    exact le_rfl

/-- The requests between clearing and writing. -/
def storingNow (s : Threads SharedCache Stage) : ℕ := weigh storingWeight s.places

/-- **Entries and requests that are about to write**: a request that writes is no longer one of them, and one that
    joins them has cleared the cache. -/
theorem cached_step {s : Threads SharedCache Stage} {t : Turn Stage Progress} (ht : ∀ k, t = .spawn k → k = .fetching)
    {bound : ℕ} (h : s.shared.entries.length + storingNow s ≤ bound)
    (hbound : storingNow (threadStep (narrativeStep primary model) s t).1 ≤ bound) :
    let s' := (threadStep (narrativeStep primary model) s t).1
    s'.shared.entries.length + storingNow s' ≤ bound := by
  intro s'
  rcases threadStep_cases (narrativeStep primary model) s t with
    ⟨k, rfl, hs⟩ | ⟨i, st, p, cache, st', out, hi, hact, hs⟩ | hs
  · obtain rfl := ht k rfl
    have hs' : s' = ⟨s.shared, s.places ++ [.fetching]⟩ := congrArg Prod.fst hs
    rw [hs']
    unfold storingNow at h ⊢
    rw [weigh_spawn]
    exact h
  · have hs' : s' = ⟨cache, s.places.set i st'⟩ := congrArg Prod.fst hs
    have hweigh := weigh_set storingWeight hi st'
    change storingNow s' ≤ bound at hbound
    rw [hs'] at hbound ⊢
    unfold storingNow at h hbound ⊢
    dsimp only at hbound ⊢
    cases narrativeStep_goes hact with
    | cleared =>
        rw [Dict.entries_empty, List.length_nil]
        omega
    | @stored g sig out =>
        have hlen := length_set_le s.shared sig out
        simp only [storingWeight] at hweigh
        omega
    | _ =>
        simp only [storingWeight] at hweigh
        omega
  · have hs' : s' = s := congrArg Prod.fst hs
    rw [hs']
    exact h

theorem cached_le (events : List GatewayEvent) {bound : ℕ}
    (hbound : ∀ n, storingNow (gateway primary model (events.take n)).1 ≤ bound) :
    (gateway primary model events).1.shared.entries.length + storingNow (gateway primary model events).1 ≤ bound := by
  induction events using List.reverseRecOn with
  | nil => exact Nat.zero_le _
  | append_singleton events ev ih =>
      have hlast : (gateway primary model (events ++ [ev])).1
          = (threadStep (narrativeStep primary model) (gateway primary model events).1 ev.turn).1 := by
        unfold gateway threads logged
        rw [List.map_append, List.foldl_append]
        rfl
      have hbefore : ∀ n, storingNow (gateway primary model (events.take n)).1 ≤ bound := by
        intro n
        have hn := hbound (min n events.length)
        rw [List.take_append_of_le_length (Nat.min_le_right _ _)] at hn
        rwa [← List.take_eq_take_min] at hn
      have hnow : storingNow (gateway primary model (events ++ [ev])).1 ≤ bound := by
        have hn := hbound (events ++ [ev]).length
        rwa [List.take_length] at hn
      rw [hlast] at hnow ⊢
      refine cached_step primary model ?_ (ih hbefore) hnow
      rintro k hk
      cases ev with
      | request => exact (Turn.spawn.inj hk).symm
      | progress i p => exact absurd hk (by simp [GatewayEvent.turn])

/-- **Narratives are sound at once.** Over every interleaving of requests: what each is answered with is accounted for
    (its own graph's line, what the model or the template says of its own graph, or what the model said of a graph of
    the same signature, found in the cache), and one that fails for want of an entry had it cleared by another after it
    was found; every cached verdict was rendered for its own signature; a request is answered once, when it is over;
    and the cache never holds more verdicts than there were ever requests at once between clearing and writing. -/
theorem narratives_concurrent (events : List GatewayEvent) :
    let gw := (gateway primary model events).1
    let log := (gateway primary model events).2
    Each (Accounted primary) log ∧ (∀ sig out, gw.shared.get? sig = some out → RenderedFor log sig out) ∧
      (∀ (i : ℕ) (st : Stage), gw.places[i]? = some st → endings log i = st.endings) ∧
      ∀ bound, (∀ n, storingNow (gateway primary model (events.take n)).1 ≤ bound) →
        gw.shared.entries.length ≤ bound := by
  intro gw log
  have h := gateway_asserted primary model events
  refine ⟨h.inv.accounted, h.inv.rendered, fun i st hi => (h.places i st hi).2, ?_⟩
  intro bound hbound
  exact (Nat.le_add_right _ _).trans (cached_le primary model events hbound)

end Run

/-! ## One at a time -/

section Serial
variable (primary : Signal) (model : String)

/-- All steps of a request, one after the other; it takes those it has. -/
def oneRequest (i : ℕ) (req : Request) : List GatewayEvent :=
  [.request, .progress i (.fetched (.ok req.graph) req.ts), .progress i .look, .progress i .read,
    .progress i (.rendered (req.ollama (promptOf primary req.graph)) req.ts), .progress i .clear, .progress i .store]

/-- Requests, each after the one before is over. -/
def oneByOne (reqs : List Request) : List GatewayEvent := reqs.zipIdx.flatMap fun e => oneRequest primary e.2 e.1

/-- The replies, in order; none for a request that failed. -/
def repliesIn (log : List (ℕ × Deed)) : List (Option Reply) :=
  log.filterMap fun x =>
    match x.2 with
    | .answered _ out => some (some out)
    | .failed _ => some none
    | _ => none

/-- The replies of the sequential account. -/
def narrativeReplies (cache : NarrCache) : List Request → List (Option Reply)
  | [] => []
  | req :: reqs => (narrative primary model cache req).1 :: narrativeReplies (narrative primary model cache req).2 reqs

/-- The shared cache with what the sequential account has cached. -/
def cacheOf : NarrCache → SharedCache
  | none => ∅
  | some entry => (∅ : SharedCache).set entry.1 entry.2

theorem cacheOf_entries (cache : NarrCache) : (cacheOf cache).entries = cache.toList := by
  cases cache with
  | none => rfl
  | some entry => rfl

theorem cacheOf_get? (cache : NarrCache) (sig : VerdictSignature) :
    (cacheOf cache).get? sig = (cache.filter fun entry => entry.1 = sig).map Prod.snd := by
  cases cache with
  | none => rfl
  | some entry =>
      unfold cacheOf
      dsimp only
      rw [Dict.get?_set, Dict.get?_empty]
      by_cases hsig : entry.1 = sig
      · simp [hsig, Option.filter]
      · simp [hsig, Ne.symm hsig, Option.filter]

theorem repliesIn_append (log log' : List (ℕ × Deed)) : repliesIn (log ++ log') = repliesIn log ++ repliesIn log' :=
  List.filterMap_append

/-- **A request alone** is served as in the sequential account. -/
theorem oneRequest_alone (cache : NarrCache) (i : ℕ) (req : Request) :
    let out := alone (narrativeStep primary model) (cacheOf cache) .fetching
      [.fetched (.ok req.graph) req.ts, .look, .read, .rendered (req.ollama (promptOf primary req.graph)) req.ts,
        .clear, .store]
    out.1 = (cacheOf (narrative primary model cache req).2, .done) ∧
      repliesIn (out.2.map (Prod.mk i)) = [(narrative primary model cache req).1] := by
  intro out
  have hrun : out = alone (narrativeStep primary model) (cacheOf cache) .fetching _ := rfl
  unfold alone logged at hrun
  simp only [List.foldl_cons, List.foldl_nil, List.nil_append] at hrun
  unfold narrative
  dsimp only
  by_cases hroot : req.graph.root = []
  · have hfetched : fetchedStep primary (.ok req.graph) req.ts
        = (.done, [.answered req.graph (rootlessReply primary req.graph req.ts)]) := by
      simp [fetchedStep, hroot]
    simp only [aloneStep, narrativeStep, hfetched] at hrun
    rw [hrun, if_pos hroot]
    unfold rootlessReply
    by_cases hincip : req.graph.incipient ≠ []
    · simp [hincip, repliesIn]
    · simp [hincip, repliesIn]
  rw [if_neg hroot]
  cases hsig : verdictSignature req.graph with
  | none =>
      have hfetched : fetchedStep primary (.ok req.graph) req.ts = (.done, [.failed .typeError]) := by
        simp [fetchedStep, hroot, hsig]
      simp only [aloneStep, narrativeStep, hfetched] at hrun
      rw [hrun]
      exact ⟨rfl, rfl⟩
  | some sig =>
      have hfetched : fetchedStep primary (.ok req.graph) req.ts = (.looking req.graph sig, []) := by
        simp [fetchedStep, hroot, hsig]
      have hget := cacheOf_get? cache sig
      cases hhit : cache.filter fun entry => entry.1 = sig with
      | some entry =>
          rw [hhit] at hget
          simp only [aloneStep, narrativeStep, hfetched, hget, Option.map_some] at hrun
          simp only [hrun, hhit]
          exact ⟨trivial, rfl⟩
      | none =>
          rw [hhit] at hget
          cases htext : req.ollama (promptOf primary req.graph) with
          | none =>
              simp only [aloneStep, narrativeStep, hfetched, hget, Option.map_none, htext] at hrun
              simp only [hrun, hhit]
              simp [freshReply, htext, repliesIn, woven]
          | some text =>
              simp only [aloneStep, narrativeStep, hfetched, hget, Option.map_none, htext] at hrun
              simp only [hrun, hhit]
              simp [freshReply, htext, repliesIn, woven, cacheOf]

/-- A request among those that are over. -/
theorem oneRequest_run (cache : NarrCache) (n : ℕ) (req : Request) :
    let out := threads (narrativeStep primary model) ⟨cacheOf cache, List.replicate n .done⟩
      ((oneRequest primary n req).map GatewayEvent.turn)
    out.1 = ⟨cacheOf (narrative primary model cache req).2, List.replicate (n + 1) .done⟩ ∧
      repliesIn out.2 = [(narrative primary model cache req).1] := by
  intro out
  obtain ⟨hstate, hreplies⟩ := oneRequest_alone primary model cache n req
  have halone := threads_alone (narrativeStep primary model) (cacheOf cache) (List.replicate n Stage.done)
    .fetching [.fetched (.ok req.graph) req.ts, .look, .read,
      .rendered (req.ollama (promptOf primary req.graph)) req.ts, .clear, .store]
  rw [List.length_replicate] at halone
  have hout : out = _ := (logged_cons _ _).trans halone
  rw [hout]
  refine ⟨?_, hreplies⟩
  rw [hstate, List.replicate_succ']

theorem serial_run (cache : NarrCache) (n : ℕ) (reqs : List Request) :
    let events := (reqs.zipIdx n).flatMap fun e => oneRequest primary e.2 e.1
    let out := threads (narrativeStep primary model) ⟨cacheOf cache, List.replicate n .done⟩
      (events.map GatewayEvent.turn)
    out.1.shared = cacheOf (narrativeRun primary model cache reqs) ∧
      repliesIn out.2 = narrativeReplies primary model cache reqs := by
  intro events out
  induction reqs generalizing cache n with
  | nil => exact ⟨rfl, rfl⟩
  | cons req reqs ih =>
      obtain ⟨hstate, hreplies⟩ := oneRequest_run primary model cache n req
      obtain ⟨hrest, hrestReplies⟩ := ih (narrative primary model cache req).2 (n + 1)
      have hevents : events.map GatewayEvent.turn = (oneRequest primary n req).map GatewayEvent.turn ++
          ((reqs.zipIdx (n + 1)).flatMap fun e => oneRequest primary e.2 e.1).map GatewayEvent.turn := by
        rw [← List.map_append]
        rfl
      have hout : out = _ := (congrArg (threads _ _) hevents).trans (logged_append _ _)
      unfold threads at hstate hreplies hrest hrestReplies
      rw [hout, hstate]
      refine ⟨hrest, ?_⟩
      rw [repliesIn_append, hreplies, hrestReplies]
      rfl

/-- **One at a time, the cache is the sequential one**: the replies and the verdict cached are those of the requests
    served one after the other. -/
theorem narratives_serial (reqs : List Request) :
    let out := gateway primary model (oneByOne primary reqs)
    out.1.shared.entries = (narrativeRun primary model none reqs).toList ∧
      repliesIn out.2 = narrativeReplies primary model none reqs := by
  obtain ⟨hstate, hreplies⟩ := serial_run primary model none 0 reqs
  refine ⟨?_, hreplies⟩
  rw [← cacheOf_entries]
  exact congrArg Dict.entries hstate

end Serial

end EdgeCausal.Api
