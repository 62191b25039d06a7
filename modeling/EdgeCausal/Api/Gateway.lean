import EdgeCausal.Api.Narrative
import EdgeCausal.Api.Telemetry
import EdgeCausal.Concurrent.Threads

/-!
# `Api.Gateway` — narratives, many at once

The gateway serves each request in a thread of its own, and all of them share the cache of narratives. A request is
cut where another may come between: the engine's reply, the look into the cache, the read of what was found there, the
model's reply, the clearing of the cache and the write.
-/

namespace EdgeCausal.Api

open Lib

/-- The shared cache; cleared and written in two steps, it may come to hold more than one verdict. -/
abbrev SharedCache := Dict VerdictSignature Reply

/-- Where a request stands. -/
inductive Stage where
  | fetching
  | looking (g : NormalGraph) (sig : VerdictSignature)
  | reading (g : NormalGraph) (sig : VerdictSignature)
  | rendering (g : NormalGraph) (sig : VerdictSignature)
  | clearing (g : NormalGraph) (sig : VerdictSignature) (out : Reply)
  | storing (g : NormalGraph) (sig : VerdictSignature) (out : Reply)
  | done

/-- A step of a request, with what it gets from outside: the engine's reply, the model's, the clock. -/
inductive Progress where
  | fetched (reply : Except String NormalGraph) (ts : String)
  | look
  | read
  | rendered (text : Option String) (ts : String)
  | clear
  | store

/-- Why a request fails: an error it answers with, the sorting of edges, or a verdict that is no longer cached. -/
inductive Failure where
  | http (e : HTTPException)
  | typeError
  | keyError

/-- What can be seen of a request. -/
inductive Deed where
  | looked (sig : VerdictSignature) (hit : Bool)
  | rendered (g : NormalGraph) (out : Reply)
  | cleared
  | stored (sig : VerdictSignature) (out : Reply)
  | answered (g : NormalGraph) (out : Reply)
  | failed (f : Failure)

section Gateway
variable (primary : Signal) (ollamaModel : String)

/-- The reply without a root: the forecast, or the steady line. -/
def rootlessReply (g : NormalGraph) (ts : String) : Reply :=
  if g.incipient ≠ [] then ⟨incipientText g.incipient, .forecast, none, ts⟩
  else ⟨templateNarrative primary g, .steady, none, ts⟩

/-- A verdict with the forecast of the graph it is served for. -/
def woven (g : NormalGraph) (out : Reply) : Reply := { out with text := out.text ++ forecastSuffix g }

/-- The engine has replied. -/
def fetchedStep (reply : Except String NormalGraph) (ts : String) : Stage × List Deed :=
  match reply with
  | .error e => (.done, [.failed (.http ⟨503, "engine unreachable: " ++ e⟩)])
  | .ok g =>
      if g.root = [] then (.done, [.answered g (rootlessReply primary g ts)])
      else
        match verdictSignature g with
        | none => (.done, [.failed .typeError])
        | some sig => (.looking g sig, [])

/-- One step of a request over the cache; none where it stands elsewhere. -/
def narrativeStep (cache : SharedCache) : Stage → Progress → Option (SharedCache × Stage × List Deed)
  | .fetching, .fetched reply ts => some (cache, fetchedStep primary reply ts)
  | .looking g sig, .look =>
      match cache.get? sig with
      | some _ => some (cache, .reading g sig, [.looked sig true])
      | none => some (cache, .rendering g sig, [.looked sig false])
  | .reading g sig, .read =>
      match cache.get? sig with
      | some out => some (cache, .done, [.answered g (woven g out)])
      | none => some (cache, .done, [.failed .keyError])
  | .rendering g sig, .rendered text ts =>
      let out := freshReply primary ollamaModel ⟨g, fun _ => text, ts⟩
      match text with
      | some _ => some (cache, .clearing g sig out, [.rendered g out])
      | none => some (cache, .done, [.answered g (woven g out)])
  | .clearing g sig out, .clear => some (∅, .storing g sig out, [.cleared])
  | .storing g sig out, .store => some (cache.set sig out, .done, [.stored sig out, .answered g (woven g out)])
  | _, _ => none

/-- What happens to the gateway: a request comes in, or one of those there are goes on. -/
inductive GatewayEvent where
  | request
  | progress (i : ℕ) (p : Progress)

def GatewayEvent.turn : GatewayEvent → Turn Stage Progress
  | .request => .spawn .fetching
  | .progress i p => .act i p

/-- The gateway after some events, and what could be seen of each request. -/
def gateway (events : List GatewayEvent) : Threads SharedCache Stage × List (ℕ × Deed) :=
  threads (narrativeStep primary ollamaModel) ⟨∅, []⟩ (events.map GatewayEvent.turn)

end Gateway

end EdgeCausal.Api
