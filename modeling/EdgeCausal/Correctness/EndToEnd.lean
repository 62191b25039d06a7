import EdgeCausal.Correctness.LivePods
import EdgeCausal.Correctness.ServiceLoop
import EdgeCausal.Correctness.WindowRead

/-!
# `Correctness.EndToEnd` — from the polls to the verdict

The aggregator and the engine put together: whatever the engine serves about a pod, the aggregator had polled the pod
often enough, and lately, before the window that the engine's last turn was made on (`served_pods_sampled`).
-/

namespace EdgeCausal.Api

open Lib

/-- The pod has twelve samples of a wanted signal among those kept, one of them at most two steps older than the
    newest of every such series. -/
def Sampled (cfg : LoopConfig) (read : ℚ → ℚ) (cap : ℕ) (added : List Sample) (pod : Pod) : Prop :=
  ∃ sig ∈ cfg.grid.wanted, 12 ≤ (kept cap added pod sig).length ∧ ∃ s ∈ kept cap added pod sig,
    ∀ pod' sig', sig' ∈ cfg.grid.wanted → 12 ≤ (kept cap added pod' sig').length →
      ∀ s' ∈ kept cap added pod' sig', read s'.ts ≤ read s.ts + 2 * cfg.gridStepS

section Window
variable {cfg : LoopConfig} {rfc3339 : ℚ → String} {fromisoformat : String → Option ℚ} {read : ℚ → ℚ}
  {added : List Sample} {cap : ℕ} {pod : Pod} {sig : Signal}

/-- The newest time of a kept series as it is collected. -/
theorem newest_kept (hread : ∀ s ∈ added, epoch fromisoformat (some (rfc3339 s.ts)) = some (read s.ts))
    (henough : 12 ≤ (kept cap added pod sig).length) :
    IsGreatest {t | ∃ s ∈ kept cap added pod sig, read s.ts = t}
      (newestOf (sortOn toLex (parsed fromisoformat ((kept cap added pod sig).map (wireSample rfc3339))))) := by
  have hparsed : parsed fromisoformat ((kept cap added pod sig).map (wireSample rfc3339))
      = points read (kept cap added pod sig) :=
    parsed_wire fun s hs => hread s (mem_of_mem_kept hs).1
  have hne : sortOn toLex (points read (kept cap added pod sig)) ≠ [] := by
    intro hnil
    have hlength := congrArg List.length hnil
    rw [(sortOn_perm _ _).length_eq, points, List.length_map, List.length_nil] at hlength
    omega
  have hnewest := newestOf_greatest hne (sorted_points _)
  have htimes : {t | ∃ s ∈ sortOn toLex (points read (kept cap added pod sig)), s.1 = t}
      = {t | ∃ s ∈ kept cap added pod sig, read s.ts = t} := by
    ext t
    constructor
    · rintro ⟨x, hx, rfl⟩
      obtain ⟨s, hs, rfl⟩ := List.mem_map.mp (mem_sortOn.mp hx)
      exact ⟨s, hs, rfl⟩
    · rintro ⟨s, hs, rfl⟩
      exact ⟨(read s.ts, s.value), mem_sortOn.mpr (List.mem_map_of_mem hs), rfl⟩
  rw [hparsed]
  exact htimes ▸ hnewest

/-- **A pod that runs in a window was sampled.** -/
theorem sampled_of_runsIn (hread : ∀ s ∈ added, epoch fromisoformat (some (rfc3339 s.ts)) = some (read s.ts))
    (hnamed : ∀ s ∈ added, s.Named) (hone : OneNamespace added)
    (h : RunsIn cfg fromisoformat (wire rfc3339 ((Ring.empty cap).addAll added).window) pod) :
    Sampled cfg read cap added pod := by
  obtain ⟨⟨key, samples⟩, he, ⟨pod', sig, pts⟩, hc, hpod, hfresh⟩ := h
  obtain rfl : pod' = pod := hpod
  obtain ⟨hid, hwanted, henough, rfl⟩ := collected_iff.mp hc
  have hseries : IsSeries cfg.grid fromisoformat (wire rfc3339 ((Ring.empty cap).addAll added).window) pod' sig
      samples := ⟨⟨key, Dict.get?_eq_some_iff.mpr he, hid⟩, hwanted, henough⟩
  obtain ⟨rfl, -, hkept⟩ := (isSeries_wire hread hnamed hone).mp hseries
  obtain ⟨s, hs, hnewest⟩ := (newest_kept hread hkept).1
  refine ⟨sig, hwanted, hkept, s, hs, ?_⟩
  intro pod' sig' hwanted' hkept' s' hs'
  -- the other series is in the window too
  have hseries' : IsSeries cfg.grid fromisoformat (wire rfc3339 ((Ring.empty cap).addAll added).window) pod' sig'
      ((kept cap added pod' sig').map (wireSample rfc3339)) :=
    (isSeries_wire hread hnamed hone).mpr ⟨rfl, hwanted', hkept'⟩
  obtain ⟨⟨key', hget', hid'⟩, -, henough'⟩ := hseries'
  have hc' := (collected_iff (e := (key', (kept cap added pod' sig').map (wireSample rfc3339)))).mpr
    ⟨hid', hwanted', henough', rfl⟩
  have hle := hfresh _ (Dict.get?_eq_some_iff.mp hget') _ hc'
  have hge := (newest_kept hread hkept').2 ⟨s', hs', rfl⟩
  rw [hnewest]
  exact hge.trans hle

end Window

/-- **What is served was sampled.** The aggregator runs, over every interleaving of its polls, requests and posts; the
    engine runs, through failed fetches, exceptions and restarts, and the window of its last turn is one the aggregator
    served. Then every pod the engine serves as a finding, as an end of an edge, in the ranking, in the blast radius or
    in a warning had been sampled before that window was served: twelve samples or more of a wanted signal were kept,
    the newest at most two steps of the grid older than the newest of all. -/
theorem served_pods_sampled (est : Estimators) (sha1 : CaseKey → CaseId) (cfg : LoopConfig) (rfc3339 : ℚ → String)
    (fromisoformat : String → Option ℚ) (read : ℚ → ℚ) (parseFloat : String → Option Float64) (p : Pack) (l3 : Bool)
    (acts : List Act) (mems : Memories) (start : ℚ) (events : List LoopEvent)
    (hfetched : ∀ t window evts, events.getLast? = some (.turn t) → t.reply = .ok (window, evts) →
      ∃ before w after, (serve parseFloat p l3 acts).2 = before ++ .window w :: after ∧ window = wire rfc3339 w)
    (hread : ∀ s ∈ addedIn (serve parseFloat p l3 acts).2,
      epoch fromisoformat (some (rfc3339 s.ts)) = some (read s.ts))
    (hnamed : ∀ s ∈ addedIn (serve parseFloat p l3 acts).2, s.Named)
    (hone : OneNamespace (addedIn (serve parseFloat p l3 acts).2)) :
    (loop est sha1 cfg fromisoformat (boot cfg mems start) events).served.NamesOnly fun pod =>
      ∃ t window evts before w after, events.getLast? = some (.turn t) ∧ t.reply = .ok (window, evts) ∧
        (serve parseFloat p l3 acts).2 = before ++ .window w :: after ∧ window = wire rfc3339 w ∧
        Sampled cfg read (ringCap p).toNat (addedIn before) pod := by
  refine loop_namesOnly mems start ?_
  intro t window evts hlast hreply pod hpod
  obtain ⟨before, w, after, hlog, rfl⟩ := hfetched t window evts hlast hreply
  refine ⟨t, _, evts, before, w, after, hlast, hreply, hlog, rfl, ?_⟩
  have hadded : ∀ s ∈ addedIn before, s ∈ addedIn (serve parseFloat p l3 acts).2 := by
    intro s hs
    rw [hlog, addedIn_append]
    exact List.mem_append_left _ hs
  have hw : w = ((Ring.empty (ringCap p).toNat).addAll (addedIn before)).window :=
    (serving_run acts).answers before (.window w) after hlog
  rw [hw] at hpod
  refine sampled_of_runsIn (fun s hs => hread s (hadded s hs)) (fun s hs => hnamed s (hadded s hs)) ?_ hpod
  exact fun s hs s' hs' => hone s (hadded s hs) s' (hadded s' hs')

/-! ### A leak -/

/-- The pack of the working set and its limit. -/
def leakPack : Pack where
  intervalS := 5
  windowMin := 15
  queries := .ofList [("mem", "working_set"), ("mem_limit", "limits")]
  order := ["mem", "mem_limit"]
  thresholds := ∅

def leakFloat (s : String) : Option Float64 :=
  if s = "60" then some (.finite 60) else if s = "94" then some (.finite 94)
  else if s = "100" then some (.finite 100) else none

/-- The samples of a minute in which the working set comes close to its limit. -/
def leakAdded : List Sample :=
  (List.range 12).flatMap fun i =>
    [⟨5 * i, "timescaledb-0", "plant", "mem", if i < 8 then 60 else 94⟩,
      ⟨5 * i, "timescaledb-0", "plant", "mem_limit", 100⟩]

/-- Twelve polls that answer both queries, and a request for the window. -/
def leakActs : List Act :=
  let series (value : String) (i : ℕ) : Act :=
    .answer (.ok [⟨.ofList [("namespace", "plant"), ("pod", "timescaledb-0")], some value, 5 * i⟩])
  let poll (i : ℕ) : List Act :=
    [.tick, series (if i < 8 then "60" else "94") i, .add "", series "100" i, .add ""]
  (List.range 12).flatMap poll ++ [.getWindow]

theorem leakActs_log : (serve leakFloat leakPack true leakActs).2
    = leakAdded.map Effect.added ++ [.window ((Ring.empty 180).addAll leakAdded).window] := by
  rfl

/-- A turn on that window. -/
def leakTurn : Turn where
  reply := .ok (wire minuteText ((Ring.empty 180).addAll leakAdded).window, [])
  faults _ := none
  finish := none
  ts := 60
  now := 61

/-- The end of the pod's vector. -/
def leakTail : Series := List.replicate 11 0 ++ List.replicate 9 60 ++ List.replicate 4 94

/-- Wherever the fit begins, the limit is close. -/
theorem leakTail_forecast : ∀ k ∈ List.range 19,
    ∃ eta ∈ forecastToLimit (leakTail.drop k) 100 (leakTail.drop k).length, eta ≤ 900 := by
  decide +kernel

/-- What the turn reads. -/
def leakInput : PassInput :=
  turnInput idleLoop isoSeconds (wire minuteText ((Ring.empty 180).addAll leakAdded).window) [] leakTurn

theorem leak_warned : ∃ f ∈ turnForecasts idleLoop leakInput, f.pod = "timescaledb-0" := by
  have hread : ((leakInput.vectors "mem").get? "timescaledb-0").isSome := by decide +kernel
  obtain ⟨x, hx⟩ := Option.isSome_iff_exists.mp hread
  have hlen : ((leakInput.vectors "mem").get? "timescaledb-0").map List.length = some 180 := by decide +kernel
  have htail : ((leakInput.vectors "mem").get? "timescaledb-0").map (List.drop 156) = some leakTail := by
    decide +kernel
  have hlimit : (limitsOf (leakInput.vectors "mem_limit")).get? "timescaledb-0" = some 100 := by decide +kernel
  rw [hx] at hlen htail
  replace hlen : x.length = 180 := Option.some.inj hlen
  replace htail : x.drop 156 = leakTail := Option.some.inj htail
  have hlast : x.getLast? = some 94 := by
    have hdrop : (x.drop 156).getLast? = x.getLast? := by
      rw [List.getLast?_drop, if_neg (by omega)]
    rw [← hdrop, htail]
    decide +kernel
  obtain ⟨start, hseg, hfits⟩ := fitSegment_spec x defaultTail minFitN
  -- the fit covers six samples at least and twenty-four at most
  obtain ⟨k, hk, rfl⟩ : ∃ k < 19, start = 156 + k := by
    have hshort := hfits.shortest
    have hlong := hfits.longest
    rw [hlen] at hshort hlong
    unfold defaultTail minFitN at hlong
    unfold minFitN at hshort
    exact ⟨start - 156, by omega, by omega⟩
  rw [← List.drop_drop, htail] at hseg
  obtain ⟨eta, heta, hsoon⟩ := leakTail_forecast k (List.mem_range.mpr hk)
  rw [← hseg] at heta
  obtain ⟨f, hf⟩ : ∃ f, incipientFinding (limitsOf (leakInput.vectors "mem_limit")) defaultHorizonS defaultTail (1 / 2)
      "timescaledb-0" x = some f :=
    ⟨_, (incipientFinding_iff hlimit hlast).mpr ⟨by norm_num, by norm_num, eta, heta, hsoon, rfl⟩⟩
  have hpod : f.pod = "timescaledb-0" := incipientFinding_pod hf
  refine ⟨f, mem_incipientFindings.mpr ⟨x, ?_, ?_⟩, hpod⟩
  · rw [hpod]
    exact hx
  · rw [hpod]
    exact hf

/-- The pods that are warned of. -/
def warnedPods : EdgeCausal.Served → List Pod
  | .graph _ incipient _ => incipient.map fun f => f.pod
  | .error _ => []

theorem leakTurn_served : (turn numericEstimators (fun _ => 0) idleLoop isoSeconds (boot idleLoop (fun _ => .empty) 0)
    leakTurn).served = .graph (turnMerged idleLoop ∅) (turnForecasts idleLoop leakInput) (some 61) := by
  have hreply : leakTurn.reply = .ok (wire minuteText ((Ring.empty 180).addAll leakAdded).window, []) := rfl
  -- there is no vector of the watched signal, so no pass is run
  have hskip : (leakInput.vectors "psi_io").entries = [] := by decide +kernel
  have hcur : idleLoop.svc.signals.foldl (turnSignal numericEstimators (fun _ => 0) idleLoop leakInput
      leakTurn.faults) ⟨(boot idleLoop (fun _ => .empty) 0).conns, ∅, none⟩
        = ⟨(boot idleLoop (fun _ => .empty) 0).conns, ∅, none⟩ := if_pos (Or.inr hskip)
  rw [turn_ok hreply]
  unfold leakInput at hcur ⊢
  dsimp only
  rw [hcur]
  rfl

theorem leakAdded_named : ∀ s ∈ leakAdded, s.Named := by
  intro s hs
  have hns : Unslashed "plant" := by decide
  have hpod : Unslashed "timescaledb-0" := by decide
  have hmem : Unslashed "mem" := by decide
  have hlimit : Unslashed "mem_limit" := by decide
  obtain ⟨i, -, hs⟩ := List.mem_flatMap.mp hs
  simp only [List.mem_cons, List.not_mem_nil, or_false] at hs
  rcases hs with rfl | rfl
  · exact ⟨hns, hpod, hmem⟩
  · exact ⟨hns, hpod, hlimit⟩

/-- The engine warns of the pod, which was sampled. -/
theorem served_pods_sampled_leak :
    let eng := loop numericEstimators (fun _ => 0) idleLoop isoSeconds (boot idleLoop (fun _ => .empty) 0)
      [.turn leakTurn]
    "timescaledb-0" ∈ warnedPods eng.served ∧
    eng.served.NamesOnly fun pod =>
      ∃ t window evts before w after, [LoopEvent.turn leakTurn].getLast? = some (.turn t) ∧
        t.reply = .ok (window, evts) ∧ (serve leakFloat leakPack true leakActs).2 = before ++ .window w :: after ∧
        window = wire minuteText w ∧ Sampled idleLoop id 180 (addedIn before) pod := by
  have hadded : addedIn (serve leakFloat leakPack true leakActs).2 = leakAdded := by
    rw [leakActs_log]
    rfl
  refine ⟨?_, ?_⟩
  · obtain ⟨f, hf, hpod⟩ := leak_warned
    show "timescaledb-0" ∈ warnedPods (turn numericEstimators (fun _ => 0) idleLoop isoSeconds
      (boot idleLoop (fun _ => .empty) 0) leakTurn).served
    rw [leakTurn_served]
    exact List.mem_map.mpr ⟨f, hf, hpod⟩
  refine served_pods_sampled numericEstimators (fun _ => 0) idleLoop minuteText isoSeconds id leakFloat leakPack
    true leakActs (fun _ => .empty) 0 [.turn leakTurn] ?_ ?_ ?_ ?_
  · rintro t window evts ⟨⟩ ⟨⟩
    exact ⟨_, _, [], leakActs_log, rfl⟩
  · rw [hadded]
    decide +kernel
  · rw [hadded]
    exact leakAdded_named
  · rw [hadded]
    have hplant : ∀ s ∈ leakAdded, s.ns = "plant" := by decide +kernel
    intro s hs s' hs' _ _
    exact (hplant s hs).trans (hplant s' hs').symm

end EdgeCausal.Api
