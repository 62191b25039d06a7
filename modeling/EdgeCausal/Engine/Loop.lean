import EdgeCausal.Engine.Forecast
import EdgeCausal.Engine.Inputs
import EdgeCausal.Engine.Schema
import EdgeCausal.Engine.Transaction

/-!
# `Engine.Loop` — the service process

Each turn of the loop fetches a window and the events, runs a pass on them, merges what the signals rendered and adds
the forecasts; the result is served until the next turn. Nothing that raises ends the loop: the error is served
instead, the rest of the turn is skipped, and the next turn goes on with the same connections.
-/

namespace EdgeCausal

open Lib

/-- The settings of the process. -/
structure LoopConfig where
  svc : ServiceConfig
  forecastSignal : Signal
  forecastLimit : Signal
  forecastHorizonS : ℚ
  forecastMinFrac : ℚ
  gridStepS : ℚ

def LoopConfig.grid (cfg : LoopConfig) : GridConfig where
  signals := cfg.svc.signals
  forecastSignal := cfg.forecastSignal
  forecastLimit := cfg.forecastLimit
  gridStepS := cfg.gridStepS

/-- Where the pass of a signal raises: before it writes, after `k` vectors learned into the baselines, after `k`
    writes once these are committed, or when all is committed. -/
inductive PassFault where
  | analysing
  | learning (k : ℕ)
  | writing (k : ℕ)
  | rendering
deriving DecidableEq

/-- What a turn of the loop meets: what the fetches return, and what raises on the way. -/
structure Turn where
  reply : Except String (RawWindow × List RawEvent)
  faults : Signal → Option (PassFault × String)
  finish : Option String
  ts : ℚ
  now : ℚ

/-- What is served at `/graph`. -/
inductive Served where
  | graph (g : MergedGraph) (incipient : List Incipient) (ts : Option ℚ)
  | error (msg : String)

/-- The process between two turns. -/
structure Engine where
  conns : Signal → Conn Memory
  served : Served

/-- A turn so far. -/
structure TurnRecord where
  conns : Signal → Conn Memory
  rendered : Dict Signal ServedGraph
  raised : Option String

/-- The latest limit of each pod that has a positive one. -/
def limitsOf (limVec : Dict Pod Series) : Dict Pod ℚ :=
  limVec.filterMap fun _ v => v.getLast?.filter fun l => 0 < l

section Turn
variable (est : Estimators) (sha1 : CaseKey → CaseId) (cfg : LoopConfig) (fromisoformat : String → Option ℚ)

/-- One signal of a turn; a signal without vectors is skipped, and so are those after an exception. -/
def turnSignal (inp : PassInput) (faults : Signal → Option (PassFault × String)) (cur : TurnRecord) (sig : Signal) :
    TurnRecord :=
  if cur.raised.isSome ∨ (inp.vectors sig).entries = [] then cur
  else
    let mem := configFor cfg.svc sig
    let conn := cur.conns sig
    let out := runPass est (passArgs cfg.svc sig conn.view inp)
    let w := some (inp.witness sig)
    let done := observeOn mem sha1 conn out (inp.vectors sig) w inp.ts
    match faults sig with
    | none =>
        { cur with
          conns := Function.update cur.conns sig done
          rendered := cur.rendered.set sig (observe mem sha1 conn.view out (inp.vectors sig) w inp.ts inp.now).2 }
    | some (.analysing, msg) => { cur with raised := some msg }
    | some (.learning k, msg) =>
        { cur with
          conns := Function.update cur.conns sig (observeLearning mem k conn (inp.vectors sig) inp.ts)
          raised := some msg }
    | some (.writing k, msg) =>
        { cur with
          conns := Function.update cur.conns sig (observeRaising mem sha1 k conn out (inp.vectors sig) w inp.ts)
          raised := some msg }
    | some (.rendering, msg) =>
        { cur with conns := Function.update cur.conns sig done, raised := some msg }

/-- The input of a turn whose fetches return. -/
def turnInput (window : RawWindow) (events : List RawEvent) (t : Turn) : PassInput :=
  let inputs := buildInputs cfg.grid fromisoformat window events
  PassInput.ofWindow cfg.svc inputs.1 inputs.2 t.ts t.now

/-- The forecasts of a turn. -/
def turnForecasts (inp : PassInput) : List Incipient :=
  incipientFindings (inp.vectors cfg.forecastSignal) (limitsOf (inp.vectors cfg.forecastLimit))
    cfg.forecastHorizonS defaultTail cfg.forecastMinFrac

/-- What the signals of a turn served, merged. -/
def turnMerged (rendered : Dict Signal ServedGraph) : MergedGraph :=
  PassRecord.merged cfg.svc ⟨fun _ => .empty, [], rendered⟩

/-- One turn of the loop. -/
def turn (eng : Engine) (t : Turn) : Engine :=
  match t.reply with
  | .error msg => { eng with served := .error msg }
  | .ok (window, events) =>
      let inp := turnInput cfg fromisoformat window events t
      let cur := cfg.svc.signals.foldl (turnSignal est sha1 cfg inp t.faults) ⟨eng.conns, ∅, none⟩
      ⟨cur.conns, match cur.raised.or t.finish with
        | some msg => .error msg
        | none => .graph (turnMerged cfg cur.rendered) (turnForecasts cfg inp) (some t.now)⟩

/-- The process as it starts, on files that hold the memories `mems`: what is served before the first turn is the
    merge of the bootstrapped graphs. -/
def boot (mems : Memories) (now : ℚ) : Engine where
  conns sig := .clean (mems sig)
  served := .graph (mergeGraphs (.ofList (cfg.svc.signals.map fun sig =>
    (sig, bootstrapGraph (configFor cfg.svc sig) (mems sig) now))) cfg.svc.signals.head?) [] none

/-- What befalls the process: a turn, or its end, after which another opens the files. -/
inductive LoopEvent where
  | turn (t : Turn)
  | restart (now : ℚ)

def loopEvent (eng : Engine) : LoopEvent → Engine
  | .turn t => turn est sha1 cfg fromisoformat eng t
  | .restart now => boot cfg (fun sig => (eng.conns sig).durable) now

/-- The process after its events. -/
def loop (eng : Engine) (events : List LoopEvent) : Engine :=
  events.foldl (loopEvent est sha1 cfg fromisoformat) eng

end Turn

end EdgeCausal
