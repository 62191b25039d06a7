import EdgeCausal.Engine.Service
import EdgeCausal.Temporal.SampleHold

/-!
# `Engine.Inputs` — from the served window to the vectors of a pass

The window maps a series key to its samples, each stamped with the time it was polled. Every wanted series is read
onto one wall-clock grid that ends at the newest sample of all, so position `k` of every vector is the same
instant. `fromisoformat` is the parser of timestamps, in epoch seconds.
-/

namespace EdgeCausal

open Lib

/-- A sample as it is served; `ts` may be missing. -/
structure RawSample where
  ts : Option String
  value : ℚ
deriving DecidableEq

/-- What is served: samples by `ns/pod/signal`. -/
abbrev RawWindow := Dict String (List RawSample)

/-- A parsed sample: its timestamp and its value, compared in this order. -/
abbrev Stamped := ℚ × ℚ

/-- A served event. -/
structure RawEvent where
  pod : Pod
  kind : String
deriving DecidableEq

/-- The settings of the resampling. -/
structure GridConfig where
  signals : List Signal
  forecastSignal : Signal
  forecastLimit : Signal
  gridStepS : ℚ

/-- The number of slots of a vector. -/
def gridN : ℕ := 180

/-- The signals that are resampled: the monitored ones, their sources, and the two of the forecast. -/
def GridConfig.wanted (cfg : GridConfig) : List Signal :=
  cfg.signals ++ ["io_write", "cpu"] ++ [cfg.forecastSignal, cfg.forecastLimit]

/-- `ts.replace("Z", "+00:00")` -/
def zuluToOffset (ts : String) : String :=
  .ofList (ts.toList.flatMap fun c => if c = 'Z' then ['+', '0', '0', ':', '0', '0'] else [c])

section Build
variable (cfg : GridConfig) (fromisoformat : String → Option ℚ)

/-- Epoch seconds of a timestamp; a missing one reads `"None"`. -/
def epoch (ts : Option String) : Option ℚ := fromisoformat (zuluToOffset (ts.getD "None"))

/-- The samples whose timestamp parses. -/
def parsed (samples : List RawSample) : List Stamped :=
  samples.filterMap fun s => (epoch fromisoformat s.ts).map fun t => (t, s.value)

/-- The pod and the signal a key names, when it has three parts. -/
def keyParts (key : String) : Option (Pod × Signal) :=
  match (key.toList.splitOn '/').map String.ofList with
  | _ :: pod :: part :: parts => some (pod, (part :: parts).getLastD part)
  | _ => none

/-- A wanted series with enough samples, in order. -/
structure Collected where
  pod : Pod
  signal : Signal
  pts : List Stamped

/-- What a key and its samples contribute: nothing where the loop goes on to the next key. -/
def collected (e : String × List RawSample) : Option Collected :=
  match keyParts e.1 with
  | none => none
  | some (pod, sig) =>
      if sig ∉ cfg.wanted ∨ e.2 = [] then none
      else
        let pts := sortOn toLex (parsed fromisoformat e.2)
        if 12 ≤ pts.length then some ⟨pod, sig, pts⟩ else none

/-- What the loop over the keys has gathered. -/
structure Gathered where
  raw : Signal → Dict Pod (List Stamped)
  latest : ℚ

def Gathered.empty : Gathered := ⟨fun _ => ∅, 0⟩

/-- The timestamp of the newest sample. -/
def newestOf (pts : List Stamped) : ℚ := (pts.getLastD (0, 0)).1

/-- One key of the loop. -/
def gatherStep (g : Gathered) (e : String × List RawSample) : Gathered :=
  match collected cfg fromisoformat e with
  | none => g
  | some c =>
      { raw := Function.update g.raw c.signal ((g.raw c.signal).set c.pod c.pts)
        latest := max g.latest (newestOf c.pts) }

def gather (window : RawWindow) : Gathered := window.entries.foldl (gatherStep cfg fromisoformat) .empty

/-- The instant of a slot. -/
def slotAt (latest : ℚ) (k : ℕ) : ℚ := latest - cfg.gridStepS * ((gridN - 1 - k : ℕ) : ℚ)

/-- The instants of the slots. -/
def grid (latest : ℚ) : List ℚ := (List.range gridN).map (slotAt cfg latest)

/-- Sample and hold onto the grid: within half a step the pointer moves on, and a sample within one step of the
    slot is taken. -/
def resample (latest : ℚ) (cur : Stamped) (later : List Stamped) : List (Option ℚ) :=
  (sampleAndHold Prod.fst (fun gt => gt + cfg.gridStepS / 2) (grid cfg latest) cur later).map fun gs =>
    if |gs.2.1 - gs.1| ≤ cfg.gridStepS then some gs.2.2 else none

/-- A series on the grid: nothing when it is stale or fills too few slots; a gap is no activity. -/
def toVector (latest : ℚ) (pts : List Stamped) : Option Series :=
  match pts with
  | [] => none
  | cur :: later =>
      if newestOf (cur :: later) < latest - 2 * cfg.gridStepS then none
      else
        let vec := resample cfg latest cur later
        if 12 ≤ vec.countP Option.isSome then some (vec.map fun v => v.getD 0) else none

def toVectors (latest : ℚ) (perPod : Dict Pod (List Stamped)) : Dict Pod Series :=
  perPod.filterMap fun _ pts => toVector cfg latest pts

/-- The vectors of every wanted signal, and the pods in breach. -/
def buildInputs (window : RawWindow) (events : List RawEvent) : (Signal → Dict Pod Series) × List Pod :=
  let g := gather cfg fromisoformat window
  let breach := (events.filter fun e => e.kind = "anomaly_candidate").map RawEvent.pod
  (fun sig => toVectors cfg g.latest (g.raw sig), sortOn id breach.dedup)

end Build

end EdgeCausal
