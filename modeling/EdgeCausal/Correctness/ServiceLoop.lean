import EdgeCausal.Correctness.CrashSafety
import EdgeCausal.Correctness.GridResample
import EdgeCausal.Correctness.Silence
import EdgeCausal.Engine.Loop

/-!
# `Correctness.ServiceLoop` — the process refines the service

The process holds a connection for each signal, meets fetches that fail and turns that raise, and is restarted; the
service it is meant to be is a pure pass over the memories for each window that could be read. While no pass raises the
two agree turn by turn (`loop_refines_service`), so what holds of `serviceRun` holds of the process. Where passes do
raise, the files stay sound (`loop_sound`).
-/

namespace EdgeCausal

open Lib Lib.Conn

/-! ## The service -/

/-- The memories, and what is served. -/
structure Service where
  mems : Memories
  served : Served

section Service
variable (est : Estimators) (sha1 : CaseKey → CaseId) (cfg : LoopConfig) (fromisoformat : String → Option ℚ)

/-- The input of a turn, if it can be read. -/
def LoopEvent.input : LoopEvent → Option PassInput
  | .turn t =>
      match t.reply with
      | .ok (window, events) => some (turnInput cfg fromisoformat window events t)
      | .error _ => none
  | .restart _ => none

/-- A pass for each window that can be read; a restart shows the memories before any pod is known. -/
def Service.event (s : Service) : LoopEvent → Service
  | .turn t =>
      match t.reply with
      | .error msg => { s with served := .error msg }
      | .ok (window, events) =>
          let inp := turnInput cfg fromisoformat window events t
          let cur := servicePass est sha1 cfg.svc s.mems inp
          ⟨cur.memories, match t.finish with
            | some msg => .error msg
            | none => .graph (cur.merged cfg.svc) (turnForecasts cfg inp) (some t.now)⟩
  | .restart now => ⟨s.mems, (boot cfg s.mems now).served⟩

/-- The memories a run of the service leaves. -/
def memoriesAfter (mems : Memories) (inputs : List PassInput) : Memories :=
  ((serviceRun est sha1 cfg.svc mems inputs).getLast?.map PassRecord.memories).getD mems

end Service

/-- Nothing raises in the passes of the event; the fetches and what follows the passes may. -/
def LoopEvent.Orderly : LoopEvent → Prop
  | .turn t => ∀ sig, t.faults sig = none
  | .restart _ => True

variable {est : Estimators} {sha1 : CaseKey → CaseId} {cfg : LoopConfig} {fromisoformat : String → Option ℚ}

/-! ## Turn by turn -/

section Equations
variable {t : Turn} {window : RawWindow} {events : List RawEvent} {msg : String}

theorem turn_error (h : t.reply = .error msg) (eng : Engine) :
    turn est sha1 cfg fromisoformat eng t = { eng with served := .error msg } := by
  unfold turn
  rw [h]

theorem turn_ok (h : t.reply = .ok (window, events)) (eng : Engine) :
    turn est sha1 cfg fromisoformat eng t =
      let inp := turnInput cfg fromisoformat window events t
      let cur := cfg.svc.signals.foldl (turnSignal est sha1 cfg inp t.faults) ⟨eng.conns, ∅, none⟩
      ⟨cur.conns, match cur.raised.or t.finish with
        | some msg => .error msg
        | none => .graph (turnMerged cfg cur.rendered) (turnForecasts cfg inp) (some t.now)⟩ := by
  obtain ⟨reply, faults, finish, ts, now⟩ := t
  obtain rfl : reply = .ok (window, events) := h
  rfl

theorem Service.event_error (h : t.reply = .error msg) (s : Service) :
    s.event est sha1 cfg fromisoformat (.turn t) = { s with served := .error msg } := by
  unfold Service.event
  dsimp only
  rw [h]

theorem Service.event_ok (h : t.reply = .ok (window, events)) (s : Service) :
    s.event est sha1 cfg fromisoformat (.turn t) =
      let inp := turnInput cfg fromisoformat window events t
      let cur := servicePass est sha1 cfg.svc s.mems inp
      ⟨cur.memories, match t.finish with
        | some msg => .error msg
        | none => .graph (cur.merged cfg.svc) (turnForecasts cfg inp) (some t.now)⟩ := by
  unfold Service.event
  dsimp only
  rw [h]

end Equations

/-- The turn so far is the pass so far, everything committed. -/
structure TurnRecord.Refines (cur : TurnRecord) (pass : PassRecord) : Prop where
  raised : cur.raised = none
  conns : ∀ sig, cur.conns sig = clean (pass.memories sig)
  rendered : cur.rendered = pass.rendered

/-- **One signal.** -/
theorem turnSignal_refines {cur : TurnRecord} {pass : PassRecord} {inp : PassInput}
    {faults : Signal → Option (PassFault × String)} (sig : Signal) (hfault : faults sig = none)
    (h : cur.Refines pass) :
    (turnSignal est sha1 cfg inp faults cur sig).Refines (signalPass est sha1 cfg.svc inp pass sig) := by
  obtain ⟨hraised, hconns, hrendered⟩ := h
  unfold turnSignal signalPass
  by_cases hempty : (inp.vectors sig).entries = []
  · rw [if_pos (Or.inr hempty), if_pos hempty]
    exact ⟨hraised, hconns, hrendered⟩
  · rw [if_neg (by simp [hraised, hempty]), if_neg hempty]
    dsimp only
    rw [hfault, hconns sig, clean_view]
    dsimp only
    set out := runPass est (passArgs cfg.svc sig (pass.memories sig) inp) with hout
    refine ⟨hraised, ?_, ?_⟩
    · intro s
      have hdone : observeOn (configFor cfg.svc sig) sha1 (clean (pass.memories sig)) out (inp.vectors sig)
          (some (inp.witness sig)) inp.ts = clean (observe (configFor cfg.svc sig) sha1 (pass.memories sig) out
            (inp.vectors sig) (some (inp.witness sig)) inp.ts inp.now).1 :=
        observeOn_clean (clean (pass.memories sig))
          ⟨out, inp.vectors sig, some (inp.witness sig), inp.ts, inp.now⟩
      dsimp only
      rw [hdone, Function.update_apply, Function.update_apply]
      split
      · rfl
      · exact hconns s
    · dsimp only
      rw [hrendered]

theorem foldl_turnSignal_refines {inp : PassInput} {faults : Signal → Option (PassFault × String)}
    (sigs : List Signal) (hfaults : ∀ sig, faults sig = none) {cur : TurnRecord} {pass : PassRecord}
    (h : cur.Refines pass) :
    (sigs.foldl (turnSignal est sha1 cfg inp faults) cur).Refines
      (sigs.foldl (signalPass est sha1 cfg.svc inp) pass) := by
  induction sigs generalizing cur pass with
  | nil => exact h
  | cons sig sigs ih => exact ih (turnSignal_refines sig (hfaults sig) h)

/-- The process is the service. -/
structure Engine.Refines (eng : Engine) (s : Service) : Prop where
  conns : ∀ sig, eng.conns sig = clean (s.mems sig)
  served : eng.served = s.served

/-- **One event.** -/
theorem Engine.Refines.event {eng : Engine} {s : Service} (h : eng.Refines s) {event : LoopEvent}
    (horderly : event.Orderly) :
    (loopEvent est sha1 cfg fromisoformat eng event).Refines (s.event est sha1 cfg fromisoformat event) := by
  cases event with
  | restart now =>
      have hmems : (fun sig => (eng.conns sig).durable) = s.mems := by
        funext sig
        rw [h.conns sig, clean_durable]
      show (boot cfg (fun sig => (eng.conns sig).durable) now).Refines ⟨s.mems, (boot cfg s.mems now).served⟩
      rw [hmems]
      exact ⟨fun _ => rfl, rfl⟩
  | turn t =>
      show (turn est sha1 cfg fromisoformat eng t).Refines (s.event est sha1 cfg fromisoformat (.turn t))
      cases hreply : t.reply with
      | error msg =>
          rw [turn_error hreply, Service.event_error hreply]
          exact ⟨h.conns, rfl⟩
      | ok fetched =>
          rw [turn_ok hreply, Service.event_ok hreply]
          set inp := turnInput cfg fromisoformat fetched.1 fetched.2 t with hinp
          have hpass : (cfg.svc.signals.foldl (turnSignal est sha1 cfg inp t.faults) ⟨eng.conns, ∅, none⟩).Refines
              (servicePass est sha1 cfg.svc s.mems inp) :=
            foldl_turnSignal_refines cfg.svc.signals horderly ⟨rfl, h.conns, rfl⟩
          refine ⟨hpass.conns, ?_⟩
          have hmerged : turnMerged cfg (servicePass est sha1 cfg.svc s.mems inp).rendered
              = (servicePass est sha1 cfg.svc s.mems inp).merged cfg.svc := rfl
          dsimp only
          rw [hpass.raised, Option.none_or, hpass.rendered, hmerged]

/-! ## Runs -/

theorem Engine.Refines.loop {eng : Engine} {s : Service} {events : List LoopEvent}
    (horderly : ∀ event ∈ events, event.Orderly) (h : eng.Refines s) :
    (EdgeCausal.loop est sha1 cfg fromisoformat eng events).Refines
      (events.foldl (Service.event est sha1 cfg fromisoformat) s) := by
  induction events generalizing eng s with
  | nil => exact h
  | cons event events ih =>
      exact ih (fun e he => horderly e (List.mem_cons_of_mem event he)) (h.event (horderly event List.mem_cons_self))

theorem serviceRun_concat (mems : Memories) (inputs : List PassInput) (inp : PassInput) :
    serviceRun est sha1 cfg.svc mems (inputs ++ [inp]) = serviceRun est sha1 cfg.svc mems inputs
      ++ [servicePass est sha1 cfg.svc (memoriesAfter est sha1 cfg mems inputs) inp] := by
  induction inputs generalizing mems with
  | nil => rfl
  | cons first inputs ih =>
      have hmems : memoriesAfter est sha1 cfg (servicePass est sha1 cfg.svc mems first).memories inputs
          = memoriesAfter est sha1 cfg mems (first :: inputs) := by
        unfold memoriesAfter
        rw [show serviceRun est sha1 cfg.svc mems (first :: inputs) = servicePass est sha1 cfg.svc mems first ::
          serviceRun est sha1 cfg.svc (servicePass est sha1 cfg.svc mems first).memories inputs from rfl,
          List.getLast?_cons]
        cases (serviceRun est sha1 cfg.svc (servicePass est sha1 cfg.svc mems first).memories inputs).getLast? <;> rfl
      rw [List.cons_append, serviceRun, ih, hmems]
      rfl

theorem memoriesAfter_concat (mems : Memories) (inputs : List PassInput) (inp : PassInput) :
    memoriesAfter est sha1 cfg mems (inputs ++ [inp])
      = (servicePass est sha1 cfg.svc (memoriesAfter est sha1 cfg mems inputs) inp).memories := by
  conv_lhs => unfold memoriesAfter
  rw [serviceRun_concat, List.getLast?_concat]
  rfl

/-- The memories of the service are those of `serviceRun` over what could be read. -/
theorem service_mems (s : Service) (events : List LoopEvent) :
    (events.foldl (Service.event est sha1 cfg fromisoformat) s).mems
      = memoriesAfter est sha1 cfg s.mems (events.filterMap (LoopEvent.input cfg fromisoformat)) := by
  induction events using List.reverseRecOn with
  | nil => rfl
  | append_singleton events event ih =>
      rw [List.foldl_append, List.filterMap_append, List.foldl_cons, List.foldl_nil]
      cases event with
      | restart now =>
          rw [show List.filterMap (LoopEvent.input cfg fromisoformat) [.restart now] = [] from rfl, List.append_nil]
          exact ih
      | turn t =>
          cases hreply : t.reply with
          | error msg =>
              have hinput : List.filterMap (LoopEvent.input cfg fromisoformat) [.turn t] = [] := by
                simp [LoopEvent.input, hreply]
              rw [hinput, List.append_nil, ← ih, Service.event_error hreply]
          | ok fetched =>
              have hinput : List.filterMap (LoopEvent.input cfg fromisoformat) [.turn t]
                  = [turnInput cfg fromisoformat fetched.1 fetched.2 t] := by
                simp [LoopEvent.input, hreply]
              rw [hinput, memoriesAfter_concat, ← ih, Service.event_ok hreply]

/-- **The process refines the service.** From any files, over any sequence of turns whose passes do not raise, of
    fetches that fail, of turns that raise once their passes are done and of restarts: every file holds, committed,
    what `serviceRun` over the windows that could be read leaves in memory, and what is served is what the service
    serves: an error only when the last turn met one. -/
theorem loop_refines_service (est : Estimators) (sha1 : CaseKey → CaseId) (cfg : LoopConfig)
    (fromisoformat : String → Option ℚ) (mems : Memories) (start : ℚ) (events : List LoopEvent)
    (horderly : ∀ event ∈ events, event.Orderly) :
    let eng := loop est sha1 cfg fromisoformat (boot cfg mems start) events
    let s := events.foldl (Service.event est sha1 cfg fromisoformat) ⟨mems, (boot cfg mems start).served⟩
    (∀ sig, eng.conns sig = clean (s.mems sig)) ∧ eng.served = s.served ∧
      s.mems = memoriesAfter est sha1 cfg mems (events.filterMap (LoopEvent.input cfg fromisoformat)) := by
  intro eng s
  have hstart : (boot cfg mems start).Refines ⟨mems, (boot cfg mems start).served⟩ := ⟨fun _ => rfl, rfl⟩
  have hrefines : eng.Refines s := hstart.loop horderly
  exact ⟨hrefines.conns, hrefines.served, service_mems _ events⟩

/-- The disk signal alone, with the defaults of the forecast. -/
def idleLoop : LoopConfig where
  svc := idleService
  forecastSignal := "mem"
  forecastLimit := "mem_limit"
  forecastHorizonS := defaultHorizonS
  forecastMinFrac := 1 / 2
  gridStepS := 5

/-- A fetch that fails, a turn, a restart, and a turn that raises at its end. -/
def roughTurns : List LoopEvent :=
  [.turn ⟨.error "timed out", fun _ => none, none, 10, 10⟩,
    .turn ⟨.ok (windowOf "2026-07-05T09:30", []), fun _ => none, none, 20, 21⟩,
    .restart 25,
    .turn ⟨.ok (windowOf "2026-07-05T09:31", []), fun _ => none, some "bad limit", 30, 31⟩]

theorem loop_refines_service_rough :
    let eng := loop numericEstimators (fun _ => 0) idleLoop isoSeconds (boot idleLoop (fun _ => .empty) 0) roughTurns
    let s := roughTurns.foldl (Service.event numericEstimators (fun _ => 0) idleLoop isoSeconds)
      ⟨fun _ => .empty, (boot idleLoop (fun _ => .empty) 0).served⟩
    (∀ sig, eng.conns sig = clean (s.mems sig)) ∧ eng.served = s.served ∧
      s.mems = memoriesAfter numericEstimators (fun _ => 0) idleLoop (fun _ => .empty)
        (roughTurns.filterMap (LoopEvent.input idleLoop isoSeconds)) :=
  loop_refines_service numericEstimators (fun _ => 0) idleLoop isoSeconds (fun _ => .empty) 0 roughTurns
    (by simp [roughTurns, LoopEvent.Orderly])

/-! ## When passes raise -/

/-- The connection of a signal after a part of a turn: some calls further, each of which may have raised. -/
def Continues (cfg : LoopConfig) (sha1 : CaseKey → CaseId) (conns conns' : Signal → Conn Memory) : Prop :=
  ∀ sig, ∃ events : List ServiceEvent, conns' sig = events.foldl (serviceEvent (configFor cfg.svc sig) sha1) (conns sig)

theorem Continues.refl (conns : Signal → Conn Memory) : Continues cfg sha1 conns conns := fun _ => ⟨[], rfl⟩

theorem Continues.trans {c c' c'' : Signal → Conn Memory} (h : Continues cfg sha1 c c')
    (h' : Continues cfg sha1 c' c'') : Continues cfg sha1 c c'' := by
  intro sig
  obtain ⟨first, hfirst⟩ := h sig
  obtain ⟨rest, hrest⟩ := h' sig
  exact ⟨first ++ rest, by rw [List.foldl_append, ← hfirst, hrest]⟩

/-- One call on one connection. -/
theorem Continues.update (conns : Signal → Conn Memory) (sig : Signal) (event : ServiceEvent) :
    Continues cfg sha1 conns
      (Function.update conns sig (serviceEvent (configFor cfg.svc sig) sha1 (conns sig) event)) := by
  intro s
  by_cases hs : s = sig
  · subst hs
    exact ⟨[event], by rw [Function.update_self]; rfl⟩
  · exact ⟨[], by rw [Function.update_of_ne hs]; rfl⟩

theorem turnSignal_continues (inp : PassInput) (faults : Signal → Option (PassFault × String)) (cur : TurnRecord)
    (sig : Signal) : Continues cfg sha1 cur.conns (turnSignal est sha1 cfg inp faults cur sig).conns := by
  unfold turnSignal
  split
  · exact .refl _
  · set call : ObserveCall := ⟨runPass est (passArgs cfg.svc sig (cur.conns sig).view inp), inp.vectors sig,
      some (inp.witness sig), inp.ts, inp.now⟩
    dsimp only
    split
    · exact .update cur.conns sig (.call ⟨call, none⟩)
    · exact .refl _
    · rename_i k msg _
      exact .update cur.conns sig (.call ⟨call, some (.learning k)⟩)
    · rename_i k msg _
      exact .update cur.conns sig (.call ⟨call, some (.writing k)⟩)
    · exact .update cur.conns sig (.call ⟨call, some .rendering⟩)

theorem loopEvent_continues (eng : Engine) (event : LoopEvent) :
    Continues cfg sha1 eng.conns (loopEvent est sha1 cfg fromisoformat eng event).conns := by
  cases event with
  | restart now => exact fun sig => ⟨[.killed], rfl⟩
  | turn t =>
      show Continues cfg sha1 eng.conns (turn est sha1 cfg fromisoformat eng t).conns
      cases hreply : t.reply with
      | error msg =>
          rw [turn_error hreply]
          exact .refl _
      | ok fetched =>
          rw [turn_ok hreply]
          exact List.foldlRecOn (motive := fun cur : TurnRecord => Continues cfg sha1 eng.conns cur.conns) _ _
            (.refl _) fun cur hcur sig _ => hcur.trans (turnSignal_continues _ _ cur sig)

theorem loop_continues (eng : Engine) (events : List LoopEvent) :
    Continues cfg sha1 eng.conns (loop est sha1 cfg fromisoformat eng events).conns :=
  List.foldlRecOn (motive := fun e : Engine => Continues cfg sha1 eng.conns e.conns) events _ (.refl _)
    fun e he event _ => he.trans (loopEvent_continues e event)

/-- Only the prior and the floors of a signal differ from the shared settings. -/
theorem configFor_bounded (hcfg : cfg.svc.memory.Bounded) (sig : Signal) : (configFor cfg.svc sig).Bounded := by
  refine ⟨hcfg.alpha_pos, hcfg.alpha_le, hcfg.decay_nonneg, hcfg.decay_le, ?_, ?_, ?_, ?_, hcfg.hide_nonneg,
    hcfg.hide_le, hcfg.show_le⟩
  all_goals
    unfold configFor
    dsimp only
    split
  · exact hcfg.prior_nonneg
  · exact le_rfl
  · exact hcfg.prior_le
  · exact hcfg.alpha_pos.le
  · exact hcfg.floorFrac_nonneg
  · exact le_rfl
  · exact hcfg.floorFrac_le
  · exact zero_le_one

/-- **Whatever raises**, every file holds a sound memory. -/
theorem loop_sound (hcfg : cfg.svc.memory.Bounded) (h0 : 0 < cfg.svc.memory.tauFamily)
    (h1 : cfg.svc.memory.tauFamily ≤ cfg.svc.memory.tauMerge) (start : ℚ) (events : List LoopEvent) (sig : Signal) :
    SoundMemory (configFor cfg.svc sig)
      ((loop est sha1 cfg fromisoformat (boot cfg (fun _ => .empty) start) events).conns sig).durable := by
  have hcontinues : Continues cfg sha1 (fun _ => clean .empty)
      (loop est sha1 cfg fromisoformat (boot cfg (fun _ => .empty) start) events).conns := loop_continues _ events
  obtain ⟨calls, hcalls⟩ := hcontinues sig
  rw [hcalls]
  have hsafe : Safe (SoundMemory (configFor cfg.svc sig)) Memory.Extends
      (calls.foldl (serviceEvent (configFor cfg.svc sig) sha1) (clean .empty)) :=
    List.foldlRecOn (motive := Safe (SoundMemory (configFor cfg.svc sig)) Memory.Extends) calls _
      (.clean Memory.Extends.refl (soundMemory_empty _))
      fun conn hconn e _ => (serviceEvent_safe sha1 (configFor_bounded hcfg sig) h0 h1 e hconn).1
  exact hsafe.durable

end EdgeCausal
