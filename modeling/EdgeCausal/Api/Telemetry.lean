import EdgeCausal.Engine.Merge

/-!
# `Api.Telemetry` — the sample window and the status it is shown as

The aggregator keeps the last samples of every series in a ring and serves all of it; the gateway turns a
window into one status row a workload and into the points of one series. Names of live pods are collapsed to
workload names, so several pods of one workload meet in one row.
-/

namespace EdgeCausal.Api

open Lib

/-! ## The ring -/

structure Sample where
  ts : ℚ
  pod : Pod
  ns : String
  sig : Signal
  value : ℚ
deriving DecidableEq

/-- The key of the series a sample belongs to. -/
def Sample.key (s : Sample) : String := s.ns ++ "/" ++ s.pod ++ "/" ++ s.sig

/-- The last `capN` samples of each series, oldest first. -/
structure Ring where
  data : Dict String (List Sample)
  capN : ℕ
  capped : ∀ e ∈ data.entries, e.2.length ≤ capN
  keyed : ∀ e ∈ data.entries, ∀ s ∈ e.2, s.key = e.1

namespace Ring

def empty (capN : ℕ) : Ring where
  data := ∅
  capN := capN
  capped := fun e he => absurd he (by simp)
  keyed := fun e he => absurd he (by simp)

/-- The series of `s` after `s` is appended. -/
def appended (r : Ring) (s : Sample) : List Sample :=
  let series := (r.data.get? s.key).getD [] ++ [s]
  if r.capN < series.length then lastN r.capN series else series

theorem length_appended (r : Ring) (s : Sample) : (r.appended s).length ≤ r.capN := by
  unfold appended lastN
  dsimp only
  split
  · rw [List.length_drop]; omega
  · omega

theorem mem_appended {r : Ring} {s x : Sample} (h : x ∈ r.appended s) :
    x = s ∨ ∃ l, (s.key, l) ∈ r.data.entries ∧ x ∈ l := by
  have hx : x ∈ (r.data.get? s.key).getD [] ++ [s] := by
    unfold appended at h
    dsimp only at h
    split at h
    · exact mem_of_mem_lastN h
    · exact h
  rcases List.mem_append.mp hx with hx | hx
  · cases hget : r.data.get? s.key with
    | none => rw [hget] at hx; exact absurd hx List.not_mem_nil
    | some l => rw [hget] at hx; exact Or.inr ⟨l, Dict.get?_eq_some_iff.mp hget, hx⟩
  · exact Or.inl (List.mem_singleton.mp hx)

def add (r : Ring) (s : Sample) : Ring where
  data := r.data.set s.key (r.appended s)
  capN := r.capN
  capped := by
    intro e he
    rcases Dict.mem_of_mem_setEntry he with rfl | he
    · exact length_appended r s
    · exact r.capped e he
  keyed := by
    intro e he x hx
    rcases Dict.mem_of_mem_setEntry he with rfl | he
    · rcases mem_appended hx with rfl | ⟨l, hl, hx⟩
      · rfl
      · exact r.keyed _ hl x hx
    · exact r.keyed e he x hx

/-- A poll adds its samples one by one. -/
def addAll (r : Ring) (samples : List Sample) : Ring := samples.foldl add r

end Ring

/-- What is served: series by key, keys in order. -/
abbrev Window := Dict String (List Sample)

/-- The JSON of the ring's map lists the keys sorted. -/
def Ring.window (r : Ring) : Window where
  entries := sortOn Prod.fst r.data.entries
  nodup := (((sortOn_perm Prod.fst r.data.entries).map Prod.fst).nodup_iff).mpr r.data.nodup

/-! ## Reading a window -/

/-- A failed request. -/
structure HTTPException where
  status : ℕ
  detail : String
deriving DecidableEq

/-- What a key says about its series. -/
structure SeriesId where
  ns : String
  pod : Pod
  signal : Signal
deriving DecidableEq

/-- `key.split("/")`: the first two parts and the last; a key of fewer than three parts is skipped. -/
def seriesId (key : String) : Option SeriesId :=
  match (key.toList.splitOn '/').map String.ofList with
  | ns :: pod :: part :: parts => some ⟨ns, pod, (part :: parts).getLastD part⟩
  | _ => none

/-- The gateway's own copy of the pod-to-workload rule. -/
def workload (pod : Pod) : Workload := stableWorkload pod

/-- A series with its key. -/
abbrev Entry := String × List Sample

/-- The last level of one monitored series. -/
structure Reading where
  workload : Workload
  ns : String
  signal : Signal
  level : ℚ

/-- What the status list takes from a series: nothing when its signal is not monitored or it is empty. -/
def reading (signals : List Signal) (e : Entry) : Option Reading :=
  match seriesId e.1, e.2.getLast? with
  | some id, some s => if id.signal ∈ signals then some ⟨workload id.pod, id.ns, id.signal, s.value⟩ else none
  | _, _ => none

/-! ## `GET /api/pods` -/

structure PodRow where
  workload : Workload
  ns : String
  signal : Signal
  value : ℚ
  anomalous : Bool
deriving DecidableEq

/-- The row a workload starts with. -/
def PodRow.fresh (rd : Reading) : PodRow := ⟨rd.workload, rd.ns, rd.signal, 0, false⟩

/-- One reading against its workload's row: the hottest signal class is reported. -/
def PodRow.take (flagged : List Workload) (rd : Reading) (row : Option PodRow) : PodRow :=
  let cur := row.getD (PodRow.fresh rd)
  let cur := if cur.value ≤ rd.level then { cur with value := roundAt 4 rd.level, signal := rd.signal } else cur
  { cur with anomalous := rd.workload ∈ flagged }

/-- The rows after all readings, in the order their workloads were first seen. -/
def podRows (flagged : List Workload) (readings : List Reading) : Dict Workload PodRow :=
  readings.foldl (fun out rd => out.set rd.workload (PodRow.take flagged rd (out.get? rd.workload))) ∅

/-- The workloads the engine finds anomalous; none when it cannot be reached. -/
def flaggedBy (engine : Option MergedGraph) : List Workload :=
  match engine with
  | some g => g.findings.map fun f => workload f.finding.pod
  | none => []

/-- The live snapshot, hottest workload first. -/
def pods (signals : List Signal) (agg : Except String Window) (engine : Option MergedGraph) :
    Except HTTPException (List PodRow) :=
  match agg with
  | .error e => .error ⟨503, "aggregator unreachable: " ++ e⟩
  | .ok window =>
      let rows := podRows (flaggedBy engine) (window.entries.filterMap (reading signals))
      .ok (sortOn (fun p => -p.value) rows.values)

/-! ## `GET /api/signal/{pod}` -/

structure Points where
  pod : Workload
  signal : Signal
  points : List (ℚ × ℚ)
deriving DecidableEq

/-- A series with samples, of one signal of one workload. -/
def serves (pod : Workload) (sig : Signal) (e : Entry) : Bool :=
  match seriesId e.1 with
  | some id => id.signal = sig ∧ e.2 ≠ [] ∧ workload id.pod = pod
  | none => false

/-- The series of one workload's signal: the first in the window. -/
def signal (agg : Except String Window) (pod : Workload) (sig : Signal) : Except HTTPException Points :=
  match agg with
  | .error e => .error ⟨503, "aggregator unreachable: " ++ e⟩
  | .ok window =>
      match window.entries.find? (serves pod sig) with
      | some e => .ok ⟨pod, sig, e.2.map fun s => (s.ts, s.value)⟩
      | none => .error ⟨404, "no '" ++ sig ++ "' series for workload '" ++ pod ++ "'"⟩

/-! ## Stale series -/

def newest (samples : List Sample) : Option ℚ := firstMax id (samples.map Sample.ts)

/-- The newest timestamp of a window. -/
def latest (window : Window) : Option ℚ := firstMax id (window.values.filterMap newest)

/-- The engine's rule for dead pods: the newest sample is more than two steps behind the window. -/
def stale (step : ℚ) (window : Window) (samples : List Sample) : Bool :=
  match newest samples, latest window with
  | some t, some l => t < l - 2 * step
  | _, _ => false

/-- The window without its stale series. -/
def dropStale (step : ℚ) (window : Window) : Window where
  entries := window.entries.filter fun e => !stale step window e.2
  nodup := (List.filter_sublist.map Prod.fst).nodup window.nodup

end EdgeCausal.Api
