import Mathlib
import EdgeCausal.Temporal.History

/-!
# `Factory.Interlock` — the safety interlock

The interlock goes to safe mode when the heartbeat of the control relay has been silent for three seconds. The
heartbeat's callback and the ticker run at once over two atomics, the time of the last beat and the trip; each load
and each store is a step of its own, and so is each look at the clock.
-/

namespace EdgeCausal.Factory

open Lib

/-- Where the heartbeat's callback stands. -/
inductive Beat where
  | idle
  | stamped (now : ℤ)
  | clearing
deriving DecidableEq

/-- Where the ticker stands: the time it looked at, and the last beat it saw. -/
inductive Ticker where
  | idle
  | timed (now : ℤ)
  | late (now seen : ℤ)
  | tripping (now seen : ℤ)
  | printing
deriving DecidableEq

structure Interlock where
  last : ℤ
  tripped : Bool
  beat : Beat
  ticker : Ticker
deriving DecidableEq

/-- `last.Store(time.Now().UnixMilli())` at the start. -/
def Interlock.start (now : ℤ) : Interlock := ⟨now, false, .idle, .idle⟩

inductive InterlockEvent where
  | beat (now : ℤ)
  | store
  | clear
  | tick (now : ℤ)
  | load
  | check
  | trip
  | print

/-- What happens to the atomics, what is seen of them, and what is printed. -/
inductive Note where
  | beaten (stamp : ℤ)
  | cleared
  | ticked (now : ℤ)
  | loaded (now seen : ℤ)
  | tripped (now seen : ℤ)
  | printed
deriving DecidableEq

/-- The silence that trips. -/
def silence : ℤ := 3000

/-- One step; one that is not enabled does nothing. -/
def interlockStep (s : Interlock) (ev : InterlockEvent) : Interlock × List Note :=
  match ev, s.beat, s.ticker with
  | .beat now, .idle, _ => ({ s with beat := .stamped now }, [])
  | .store, .stamped now, _ => ({ s with last := now, beat := .clearing }, [.beaten now])
  | .clear, .clearing, _ => ({ s with tripped := false, beat := .idle }, [.cleared])
  | .tick now, _, .idle => ({ s with ticker := .timed now }, [.ticked now])
  | .load, _, .timed now =>
      ({ s with ticker := if silence < now - s.last then .late now s.last else .idle }, [.loaded now s.last])
  | .check, _, .late now seen => ({ s with ticker := if s.tripped then .idle else .tripping now seen }, [])
  | .trip, _, .tripping now seen => ({ s with tripped := true, ticker := .printing }, [.tripped now seen])
  | .print, _, .printing => ({ s with ticker := .idle }, [.printed])
  | _, _, _ => (s, [])

/-- A run of the interlock. -/
def interlock (start : ℤ) (events : List InterlockEvent) : Interlock × List Note :=
  logged interlockStep (.start start) events

/-- What `/state` answers. -/
def Interlock.state (s : Interlock) : String := if s.tripped then "SAFE_MODE" else "ARMED"

end EdgeCausal.Factory
