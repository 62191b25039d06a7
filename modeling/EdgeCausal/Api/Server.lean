import EdgeCausal.Api.Aggregator
import EdgeCausal.Temporal.History

/-!
# `Api.Server` — the aggregator as a process

`main` polls in one goroutine, on every tick, and answers `/window` and `/events` from others. The ring and the
recent events have a lock each, held for one append or one read, so a run of the process is an interleaving of
the acts below: the polling goroutine advances by one query, one sample or one event at a time, and requests and
the posts to L3 fall anywhere in between.
-/

namespace EdgeCausal.Api

open Lib

/-! ## Start -/

/-- Go's `int` wraps at 64 bits. -/
def goInt (n : ℤ) : ℤ := Int.bmod n (2 ^ 64)

/-- The interval in force. -/
def Pack.interval (p : Pack) : ℤ := if p.intervalS ≤ 0 then 5 else p.intervalS

/-- The samples a series may hold; division truncates towards 0. -/
def ringCap (p : Pack) : ℤ := (goInt (p.windowMin * 60)).tdiv p.interval

/-- `recent` holds this many events. -/
def recentCap : ℕ := 256

/-! ## Events on the wire -/

/-- The event as JSON; a threshold that is not finite has none. -/
def Event.marshal (ev : Event) : Option Event :=
  match ev.threshold with
  | .finite _ => some ev
  | _ => none

/-- The body of `/events`: nothing when one of the events has no JSON. -/
def encodeAll (events : List Event) : Option (List Event) := events.mapM Event.marshal

/-- The event as the schema has it. -/
def Event.Conforms (ev : Event) : Prop :=
  ev.v = 1 ∧ ev.kind ∈ ["anomaly_candidate", "threshold_breach", "restart", "oom", "probe_fail"] ∧
    ev.signal ∈ schemaSignals

/-! ## The process -/

/-- Where the polling goroutine stands: waiting for a tick, before the query of a signal, before a sample of its
    answer, or before an event is printed or stored. What is left to do follows, and the events found so far. -/
inductive Phase where
  | idle
  | asking (sig : Signal) (signals : List Signal) (events : List Event)
  | adding (sig : Signal) (s : Sample) (samples : List Sample) (signals : List Signal) (events : List Event)
  | printing (ev : Event) (events : List Event)
  | storing (ev : Event) (events : List Event)
deriving DecidableEq

/-- The poll is over: the events are printed and stored one by one. -/
def emitting : List Event → Phase
  | [] => .idle
  | ev :: events => .printing ev events

def nextSignal (signals : List Signal) (events : List Event) : Phase :=
  match signals with
  | [] => emitting events
  | sig :: signals => .asking sig signals events

def nextSample (sig : Signal) (samples : List Sample) (signals : List Signal) (events : List Event) : Phase :=
  match samples with
  | [] => nextSignal signals events
  | s :: samples => .adding sig s samples signals events

/-- The shared state: the ring, the recent events and the posts under way; and whether a panic has ended it. -/
structure Server where
  ring : Ring
  recent : List Event
  posting : List (Option Event)
  phase : Phase
  down : Bool

def Server.start (p : Pack) : Server := ⟨.empty (ringCap p).toNat, [], [], .idle, false⟩

inductive Act where
  | tick
  | answer (reply : PromResponse)
  | add (clock : String)
  | print
  | store
  | post (i : ℕ)
  | getWindow
  | getEvents

/-- What an act does that others can see. -/
inductive Effect where
  | added (s : Sample)
  | printed (line : Option Event)
  | stored (ev : Event)
  | posted (body : Option Event)
  | window (w : Window)
  | events (body : Option (List Event))
  | panic

section Step
variable (parseFloat : String → Option Float64) (p : Pack) (l3 : Bool)

/-- A poll that has only its clock left to show. -/
def clockAt (clock : String) : Poll := ⟨fun _ _ => .ok [], fun _ => clock⟩

/-- The sample at hand: skipped without a pod, else added and compared; a negative capacity panics in `Add`. -/
def addStep (clock : String) (s : Server) (sig : Signal) (smp : Sample) (samples : List Sample)
    (signals : List Signal) (events : List Event) : Server × List Effect :=
  if smp.pod = "" then ({ s with phase := nextSample sig samples signals events }, [])
  else if ringCap p < 0 then ({ s with down := true }, [.panic])
  else
    let out := record p (clockAt clock) ⟨s.ring, events⟩ { smp with sig := sig }
    ({ s with ring := out.ring, phase := nextSample sig samples signals out.events },
      [.added { smp with sig := sig }])

/-- `recent = append(recent, ev)`, cut to its last events; then the post is started. -/
def storeStep (s : Server) (ev : Event) (events : List Event) : Server × List Effect :=
  let recent := s.recent ++ [ev]
  ({ s with
      recent := if recentCap < recent.length then lastN recentCap recent else recent
      posting := if l3 then s.posting ++ [ev.marshal] else s.posting
      phase := emitting events }, [.stored ev])

/-- One act; one that is not enabled does nothing, and after a panic none is. -/
def serverStep (s : Server) (a : Act) : Server × List Effect :=
  if s.down then (s, [])
  else
    match a, s.phase with
    | .tick, .idle => ({ s with phase := nextSignal p.order [] }, [])
    | .answer reply, .asking sig signals events =>
        match promQuery parseFloat reply with
        | .error _ => ({ s with phase := nextSignal signals events }, [])
        | .ok samples => ({ s with phase := nextSample sig samples signals events }, [])
    | .add clock, .adding sig smp samples signals events => addStep p clock s sig smp samples signals events
    | .print, .printing ev events => ({ s with phase := .storing ev events }, [.printed ev.marshal])
    | .store, .storing ev events => storeStep l3 s ev events
    | .post i, _ =>
        match s.posting[i]? with
        | some body => ({ s with posting := s.posting.eraseIdx i }, [.posted body])
        | none => (s, [])
    | .getWindow, _ => (s, [.window s.ring.window])
    | .getEvents, _ => (s, [.events (encodeAll s.recent)])
    | _, _ => (s, [])

/-- A run of the process from its start. -/
def serve (acts : List Act) : Server × List Effect := logged (serverStep parseFloat p l3) (.start p) acts

end Step

end EdgeCausal.Api
