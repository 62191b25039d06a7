import EdgeCausal.Api.Pack
import EdgeCausal.Api.Telemetry
import EdgeCausal.Collections.OrderStat

/-!
# `Api.Aggregator` — one poll of the query pack

A poll asks the query of every signal in pack order, appends what comes back to the ring and reports the samples
above the threshold of their signal. `parseFloat` is the parser of sample values, `none` where it fails.
-/

namespace EdgeCausal.Api

open Lib

/-- The signals an event may carry. -/
def schemaSignals : List Signal :=
  ["cpu", "mem", "net_rx", "net_tx", "pvc_io_util", "pvc_capacity", "psi_cpu", "psi_mem", "psi_io", "restarts",
    "latency_p95", "log_error_rate"]

/-- The directly comparable rule of a signal. -/
def thresholdFor (sig : Signal) (p : Pack) : Option Float64 :=
  if sig = "pvc_capacity" then p.thresholds.get? "pvc_capacity"
  else if sig = "psi_cpu" ∨ sig = "psi_mem" ∨ sig = "psi_io" then p.thresholds.get? "psi_some_avg"
  else if sig = "latency_p95" then p.thresholds.get? "latency_p95_s"
  else none

/-! ## A query -/

/-- One result of a query: its labels, its value (`none` where it is not a string) and the clock when it is
    read. -/
structure PromResult where
  metric : Dict String String
  value : Option String
  now : ℚ

/-- What comes back for a query; an error is a failed request or a body that does not parse. -/
abbrev PromResponse := Except String (List PromResult)

section Query
variable (parseFloat : String → Option Float64)

/-- A result as a sample, its signal still open; values that are not finite numbers are skipped. -/
def promSample (r : PromResult) : Option Sample :=
  match r.value with
  | none => none
  | some s =>
      match parseFloat s with
      | some (.finite v) =>
          some ⟨r.now, (r.metric.get? "pod").getD "", (r.metric.get? "namespace").getD "", "", v⟩
      | _ => none

def promQuery (reply : PromResponse) : Except String (List Sample) :=
  reply.map fun results => results.filterMap (promSample parseFloat)

end Query

/-! ## An event -/

/-- The stored samples of one series. -/
def Ring.stored (r : Ring) (ns : String) (pod : Pod) (sig : Signal) : List Sample :=
  (r.data.get? (ns ++ "/" ++ pod ++ "/" ++ sig)).getD []

def Ring.series (r : Ring) (ns : String) (pod : Pod) (sig : Signal) : List ℚ :=
  (r.stored ns pod sig).map Sample.value

/-- Robust z-score against the upper medians, 0 without enough history. -/
def zscore (hist : List ℚ) (v : ℚ) : ℚ :=
  if hist.length < 12 then 0
  else
    let cp := ascending hist
    let med := cp.getD (cp.length / 2) 0
    let dev := ascending (cp.map fun x => |x - med|)
    let mad := dev.getD (dev.length / 2) 0
    if mad = 0 then 0 else (v - med) / (14826 / 10000 * mad)

structure Event where
  v : ℕ
  ts : String
  kind : String
  ns : String
  pod : Pod
  signal : Signal
  value : ℚ
  zscore : ℚ
  threshold : Float64
  windowS : ℕ
deriving DecidableEq

/-! ## A poll -/

/-- What a poll meets: the answer to each signal's query, and the clock as the `n`-th event shows it. -/
structure Poll where
  reply : Signal → String → PromResponse
  clock : ℕ → String

/-- What a poll has done so far. -/
structure Polled where
  ring : Ring
  events : List Event

section Eval
variable (parseFloat : String → Option Float64) (p : Pack) (poll : Poll)

/-- Append a sample to its series and report it when it is above its threshold. -/
def record (cur : Polled) (s : Sample) : Polled :=
  let ring := cur.ring.add s
  if s.sig ∉ schemaSignals then ⟨ring, cur.events⟩
  else
    match thresholdFor s.sig p with
    | none => ⟨ring, cur.events⟩
    | some thr =>
        if thr.below s.value then
          ⟨ring, cur.events ++ [⟨1, poll.clock cur.events.length, "anomaly_candidate", s.ns, s.pod, s.sig, s.value,
            zscore (ring.series s.ns s.pod s.sig) s.value, thr, 60⟩]⟩
        else ⟨ring, cur.events⟩

/-- One sample of a signal; without a pod it is skipped. -/
def evalSample (sig : Signal) (cur : Polled) (s : Sample) : Polled :=
  if s.pod = "" then cur else record p poll cur { s with sig := sig }

/-- One signal of the pack; a failed query is skipped. -/
def evalSignal (cur : Polled) (sig : Signal) : Polled :=
  match promQuery parseFloat (poll.reply sig ((p.queries.get? sig).getD "")) with
  | .error _ => cur
  | .ok samples => samples.foldl (evalSample p poll sig) cur

/-- The pack, run once. -/
def evalEvents (ring : Ring) : Polled := p.order.foldl (evalSignal parseFloat p poll) ⟨ring, []⟩

end Eval

/-- The ring after a sequence of polls, from an empty one. -/
def ringAfter (parseFloat : String → Option Float64) (p : Pack) (capN : ℕ) (polls : List Poll) : Ring :=
  polls.foldl (fun ring poll => (evalEvents parseFloat p poll ring).ring) (.empty capN)

end EdgeCausal.Api
