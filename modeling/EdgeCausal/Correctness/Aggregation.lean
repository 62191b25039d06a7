import EdgeCausal.Api.Aggregator
import EdgeCausal.Collections.Text

/-!
# `Correctness.Aggregation` — nothing lost, invented or misplaced

A poll is the samples it received, one after the other: the ring appends them under their own keys and the events
are those of them that exceed their threshold. Over any run of polls each key therefore holds the last of its own
samples, whatever the other keys and the failed queries did.
-/

namespace EdgeCausal.Api

open Lib

/-! ## The samples received -/

section Received
variable (parseFloat : String → Option Float64) (p : Pack) (poll : Poll)

/-- What a signal's query returned, with a pod: a failed query returns no samples. -/
def receivedFor (sig : Signal) : List Sample :=
  match promQuery parseFloat (poll.reply sig ((p.queries.get? sig).getD "")) with
  | .error _ => []
  | .ok samples => (samples.filter fun s => s.pod ≠ "").map fun s => { s with sig := sig }

/-- What a poll received, in pack order. -/
def received : List Sample := p.order.flatMap (receivedFor parseFloat p poll)

/-- The sample is of a schema signal that has a rule, and strictly above its threshold. -/
def Breaches (s : Sample) : Prop :=
  s.sig ∈ schemaSignals ∧ ∃ thr, thresholdFor s.sig p = some thr ∧ thr.below s.value = true

instance (s : Sample) : Decidable (Breaches p s) :=
  match h : thresholdFor s.sig p with
  | none => isFalse fun ⟨_, _, hthr, _⟩ => by rw [h] at hthr; exact absurd hthr (by simp)
  | some thr => decidable_of_iff (s.sig ∈ schemaSignals ∧ thr.below s.value = true) (by simp [Breaches, h])

/-- What an event says of its sample. -/
def Event.source (e : Event) : String × Pod × Signal × ℚ := (e.ns, e.pod, e.signal, e.value)

def Sample.source (s : Sample) : String × Pod × Signal × ℚ := (s.ns, s.pod, s.sig, s.value)

end Received

variable {parseFloat : String → Option Float64} {p : Pack} {poll : Poll} {sig : Signal}

theorem sig_of_receivedFor {s : Sample} (h : s ∈ receivedFor parseFloat p poll sig) : s.sig = sig := by
  unfold receivedFor at h
  split at h
  · exact absurd h List.not_mem_nil
  · obtain ⟨_, -, rfl⟩ := List.mem_map.mp h
    rfl

/-! ## The ring -/

section Ring
variable {α : Type} {n : ℕ} {r : Ring} {k : String}

theorem lastN_of_length_le {l : List α} (h : l.length ≤ n) : lastN n l = l := by
  unfold lastN
  rw [Nat.sub_eq_zero_of_le h, List.drop_zero]

/-- What was already dropped would be dropped anyway. -/
theorem lastN_concat_lastN (n : ℕ) (l : List α) (x : α) : lastN n (lastN n l ++ [x]) = lastN n (l ++ [x]) := by
  unfold lastN
  rw [List.length_append, List.length_append, List.length_drop]
  rcases le_or_gt l.length n with hle | hlt
  · rw [Nat.sub_eq_zero_of_le hle, List.drop_zero, Nat.sub_zero]
  · have hdrop : (l.drop (l.length - n)) ++ [x] = (l ++ [x]).drop (l.length - n) := by
      rw [List.drop_append_of_le_length (Nat.sub_le _ _)]
    rw [hdrop, List.drop_drop]
    congr 1
    rw [List.length_singleton]
    omega

theorem Ring.appended_eq (r : Ring) (s : Sample) :
    r.appended s = lastN r.capN ((r.data.get? s.key).getD [] ++ [s]) := by
  unfold Ring.appended
  dsimp only
  split
  · rfl
  · rename_i hle
    exact (lastN_of_length_le (not_lt.mp hle)).symm

theorem Ring.addAll_concat (r : Ring) (l : List Sample) (s : Sample) :
    r.addAll (l ++ [s]) = (r.addAll l).add s := by
  unfold Ring.addAll
  rw [List.foldl_append]
  rfl

@[simp] theorem Ring.addAll_capN (r : Ring) (l : List Sample) : (r.addAll l).capN = r.capN := by
  induction l using List.reverseRecOn with
  | nil => rfl
  | append_singleton l s ih =>
      rw [r.addAll_concat]
      exact ih

/-- **Each key holds the last of its own samples**, through any run of additions. -/
theorem Ring.addAll_get? (r : Ring) (l : List Sample) (k : String) : ((r.addAll l).data.get? k).getD [] =
    lastN r.capN ((r.data.get? k).getD [] ++ l.filter fun s => s.key = k) := by
  induction l using List.reverseRecOn with
  | nil =>
      rw [List.filter_nil, List.append_nil, lastN_of_length_le]
      · rfl
      · cases hget : r.data.get? k with
        | none => exact Nat.zero_le _
        | some series => exact r.capped _ (Dict.get?_eq_some_iff.mp hget)
  | append_singleton l s ih =>
      rw [r.addAll_concat, List.filter_append]
      show (((r.addAll l).data.set s.key ((r.addAll l).appended s)).get? k).getD [] = _
      rw [Dict.get?_set]
      by_cases hk : k = s.key
      · subst hk
        rw [if_pos rfl, Option.getD_some, (r.addAll l).appended_eq, ih, r.addAll_capN, lastN_concat_lastN,
          List.append_assoc]
        simp
      · rw [if_neg hk, ih, List.filter_cons_of_neg (by simpa using Ne.symm hk), List.filter_nil,
          List.append_nil]

end Ring

/-! ## Keys -/

/-- The name holds no separator of keys. -/
def Unslashed (name : String) : Prop := '/' ∉ name.toList

instance (name : String) : Decidable (Unslashed name) := inferInstanceAs (Decidable ¬ _)

/-- **A key tells its three names apart.** -/
theorem key_inj {ns ns' : String} {pod pod' : Pod} {sig sig' : Signal} (hns : Unslashed ns) (hns' : Unslashed ns')
    (hpod : Unslashed pod) (hpod' : Unslashed pod') :
    ns ++ "/" ++ pod ++ "/" ++ sig = ns' ++ "/" ++ pod' ++ "/" ++ sig' ↔ ns = ns' ∧ pod = pod' ∧ sig = sig' := by
  constructor
  · intro h
    have hchars := congrArg String.toList h
    simp only [String.toList_append, List.append_assoc] at hchars
    obtain ⟨h1, hrest⟩ := append_cons_inj hns hns' hchars
    obtain ⟨h2, h3⟩ := append_cons_inj hpod hpod' hrest
    exact ⟨String.toList_injective h1, String.toList_injective h2, String.toList_injective h3⟩
  · rintro ⟨rfl, rfl, rfl⟩
    rfl

/-! ## A poll -/

section Poll
variable (parseFloat) (p) (poll)

/-- **A poll records the samples it received**, one after the other. -/
theorem evalEvents_eq (ring : Ring) :
    evalEvents parseFloat p poll ring = (received parseFloat p poll).foldl (record p poll) ⟨ring, []⟩ := by
  have hsignal : ∀ cur sig, evalSignal parseFloat p poll cur sig =
      (receivedFor parseFloat p poll sig).foldl (record p poll) cur := by
    intro cur sig
    unfold evalSignal receivedFor
    cases promQuery parseFloat (poll.reply sig ((p.queries.get? sig).getD "")) with
    | error _ => rfl
    | ok samples =>
        dsimp only
        rw [List.foldl_map, List.foldl_filter]
        congr 1
        funext cur s
        unfold evalSample
        by_cases hpod : s.pod = "" <;> simp [hpod]
  unfold evalEvents received
  rw [List.foldl_flatMap]
  congr 1
  funext cur sig
  exact hsignal cur sig

end Poll

theorem record_ring (cur : Polled) (s : Sample) : (record p poll cur s).ring = cur.ring.add s := by
  unfold record
  dsimp only
  split
  · rfl
  · split
    · rfl
    · split <;> rfl

theorem record_events (cur : Polled) (s : Sample) : (record p poll cur s).events.map Event.source =
    cur.events.map Event.source ++ if Breaches p s then [s.source] else [] := by
  by_cases hbreach : Breaches p s
  · obtain ⟨hschema, thr, hthr, habove⟩ := id hbreach
    rw [if_pos hbreach]
    unfold record
    simp [hschema, hthr, habove, Event.source, Sample.source]
  · rw [if_neg hbreach, List.append_nil]
    unfold record
    dsimp only
    split
    · rfl
    · rename_i hschema
      split
      · rfl
      · rename_i thr hthr
        rw [if_neg fun habove => hbreach ⟨not_not.mp hschema, thr, hthr, habove⟩]

/-- The ring after a poll. -/
theorem evalEvents_ring (ring : Ring) :
    (evalEvents parseFloat p poll ring).ring = ring.addAll (received parseFloat p poll) := by
  rw [evalEvents_eq]
  generalize received parseFloat p poll = l
  induction l using List.reverseRecOn with
  | nil => rfl
  | append_singleton l s ih =>
      rw [List.foldl_append, List.foldl_cons, List.foldl_nil, record_ring, ih, ring.addAll_concat]

/-- **The events of a poll** are the samples that breach, in the order they were received. -/
theorem evalEvents_events (ring : Ring) : (evalEvents parseFloat p poll ring).events.map Event.source =
    ((received parseFloat p poll).filter fun s => Breaches p s).map Sample.source := by
  rw [evalEvents_eq]
  generalize received parseFloat p poll = l
  induction l using List.reverseRecOn with
  | nil => rfl
  | append_singleton l s ih =>
      rw [List.foldl_append, List.foldl_cons, List.foldl_nil, record_events, ih, List.filter_append,
        List.map_append]
      congr 1
      by_cases hbreach : Breaches p s
      · simp [hbreach]
      · simp [hbreach]

/-! ## A run of polls -/

section Run
variable {capN : ℕ} {polls polls' : List Poll} {ns : String} {pod : Pod}

/-- A run of polls is one long addition. -/
theorem ringAfter_eq (capN : ℕ) (polls : List Poll) : ringAfter parseFloat p capN polls =
    (Ring.empty capN).addAll (polls.flatMap (received parseFloat p)) := by
  induction polls using List.reverseRecOn with
  | nil => rfl
  | append_singleton polls poll ih =>
      unfold ringAfter at ih ⊢
      rw [List.foldl_append, List.foldl_cons, List.foldl_nil, ih, evalEvents_ring, List.flatMap_append]
      unfold Ring.addAll
      rw [List.foldl_append]
      simp

/-- No name of a received sample holds the separator of keys. -/
def UnslashedRun (parseFloat : String → Option Float64) (p : Pack) (polls : List Poll) : Prop :=
  ∀ poll ∈ polls, ∀ s ∈ received parseFloat p poll, Unslashed s.ns ∧ Unslashed s.pod

/-- The samples of one series. -/
def ofSeries (ns : String) (pod : Pod) (sig : Signal) (l : List Sample) : List Sample :=
  l.filter fun s => s.ns = ns ∧ s.pod = pod ∧ s.sig = sig

/-- **After any run each series holds its last samples.** -/
theorem ringAfter_stored (hrun : UnslashedRun parseFloat p polls) (hns : Unslashed ns) (hpod : Unslashed pod) :
    (ringAfter parseFloat p capN polls).stored ns pod sig =
      lastN capN (ofSeries ns pod sig (polls.flatMap (received parseFloat p))) := by
  unfold Ring.stored ofSeries
  rw [ringAfter_eq, Ring.addAll_get?]
  show lastN capN ([] ++ _) = _
  rw [List.nil_append]
  refine congrArg (lastN capN) (List.filter_congr fun s hs => ?_)
  obtain ⟨poll, hpoll, hs⟩ := List.mem_flatMap.mp hs
  obtain ⟨hsns, hspod⟩ := hrun poll hpoll s hs
  exact decide_eq_decide.mpr (key_inj hsns hns hspod hpod)

/-- What a series receives depends on the answers to its own signal alone. -/
theorem ofSeries_received {poll' : Poll} (h : ∀ query, poll.reply sig query = poll'.reply sig query) :
    ofSeries ns pod sig (received parseFloat p poll) = ofSeries ns pod sig (received parseFloat p poll') := by
  unfold ofSeries received
  rw [List.filter_flatMap, List.filter_flatMap]
  congr 1
  funext other
  by_cases hother : other = sig
  · subst hother
    unfold receivedFor
    rw [h]
  · -- no sample of another signal is one of the series
    have hnone : ∀ poll, (receivedFor parseFloat p poll other).filter
        (fun s => s.ns = ns ∧ s.pod = pod ∧ s.sig = sig) = [] := by
      intro poll
      refine List.filter_eq_nil_iff.mpr fun s hs => ?_
      rw [sig_of_receivedFor hs]
      simp [hother]
    rw [hnone, hnone]

theorem ofSeries_run (h : List.Forall₂ (fun poll poll' => ∀ query, poll.reply sig query = poll'.reply sig query)
    polls polls') : ofSeries ns pod sig (polls.flatMap (received parseFloat p)) =
      ofSeries ns pod sig (polls'.flatMap (received parseFloat p)) := by
  induction h with
  | nil => rfl
  | @cons poll poll' _ _ hpoll _ ih =>
      have happend : ∀ l l', ofSeries ns pod sig (l ++ l') = ofSeries ns pod sig l ++ ofSeries ns pod sig l' :=
        fun l l' => List.filter_append l l'
      rw [List.flatMap_cons, List.flatMap_cons, happend, happend, ofSeries_received hpoll, ih]

/-- **The aggregator loses, invents and misplaces nothing**: after any poll each series holds the last samples
    received for it, which the answers to its own signal settle, and the events are the samples that breach. -/
theorem aggregator_exact (parseFloat : String → Option Float64) (p : Pack) (capN : ℕ) (polls : List Poll)
    (poll : Poll)
    (hrun : UnslashedRun parseFloat p (polls ++ [poll])) :
    let out := evalEvents parseFloat p poll (ringAfter parseFloat p capN polls)
    (∀ ns pod sig, Unslashed ns → Unslashed pod →
      out.ring.stored ns pod sig =
        lastN capN (ofSeries ns pod sig ((polls ++ [poll]).flatMap (received parseFloat p))) ∧
      ∀ polls' poll', UnslashedRun parseFloat p (polls' ++ [poll']) →
        List.Forall₂ (fun q q' => ∀ query, q.reply sig query = q'.reply sig query) (polls ++ [poll])
          (polls' ++ [poll']) →
        (evalEvents parseFloat p poll' (ringAfter parseFloat p capN polls')).ring.stored ns pod sig =
          out.ring.stored ns pod sig) ∧
    out.events.map Event.source =
      ((received parseFloat p poll).filter fun s => Breaches p s).map Sample.source := by
  have hstep : ∀ polls poll, (evalEvents parseFloat p poll (ringAfter parseFloat p capN polls)).ring =
      ringAfter parseFloat p capN (polls ++ [poll]) := by
    intro polls poll
    unfold ringAfter
    rw [List.foldl_append]
    rfl
  dsimp only
  rw [hstep]
  refine ⟨?_, evalEvents_events _⟩
  intro ns pod sig hns hpod
  refine ⟨ringAfter_stored hrun hns hpod, ?_⟩
  intro polls' poll' hrun' hsame
  rw [hstep, ringAfter_stored hrun hns hpod, ringAfter_stored hrun' hns hpod, ofSeries_run hsame]

end Run

/-! ### A storm of one pod, seen by two polls of a ring of one -/

def stormPack : Pack where
  intervalS := 5
  windowMin := 15
  queries := .ofList
    [("psi_io", "rate(container_pressure_io_stalled_seconds_total[30s])"), ("mem", "working_set")]
  order := ["psi_io", "mem"]
  thresholds := .ofList [("psi_some_avg", .finite (20 / 100))]

def stormFloat (s : String) : Option Float64 :=
  if s = "0.94" then some (.finite (94 / 100)) else if s = "0.05" then some (.finite (5 / 100)) else none

/-- The pod's stall, the node's under no pod, and no answer to the other query. -/
def stormPoll (level : String) : Poll where
  reply sig _ :=
    if sig = "psi_io" then
      .ok [⟨.ofList [("namespace", "factory-data"), ("pod", "cooling-monitor-1")], some level, 0⟩,
        ⟨.ofList [("namespace", "factory-data")], some "0.94", 0⟩]
    else .error "timeout"
  clock _ := "2026-07-05T09:30:00Z"

theorem aggregator_exact_storm :
    let out := evalEvents stormFloat stormPack (stormPoll "0.94")
      (ringAfter stormFloat stormPack 1 [stormPoll "0.05"])
    (out.ring.stored "factory-data" "cooling-monitor-1" "psi_io").map Sample.value = [94 / 100] ∧
    out.events.map Event.source = [("factory-data", "cooling-monitor-1", "psi_io", 94 / 100)] := by
  have hrun : UnslashedRun stormFloat stormPack ([stormPoll "0.05"] ++ [stormPoll "0.94"]) := by
    unfold UnslashedRun
    decide +kernel
  obtain ⟨hstored, hevents⟩ :=
    aggregator_exact stormFloat stormPack 1 [stormPoll "0.05"] (stormPoll "0.94") hrun
  refine ⟨?_, hevents.trans (by decide +kernel)⟩
  rw [(hstored "factory-data" "cooling-monitor-1" "psi_io" (by decide) (by decide)).1]
  decide +kernel

end EdgeCausal.Api
