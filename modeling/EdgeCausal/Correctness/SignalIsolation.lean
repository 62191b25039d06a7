import EdgeCausal.Correctness.Silence
import EdgeCausal.Engine.Schema
import EdgeCausal.Engine.Service

/-!
# `Correctness.SignalIsolation` — a memory of its own for each signal

No signal's memory, and nothing it renders, depends on the others: over any run of passes that do not raise each signal
is what it would be in a service that watches it alone, and the files of different signals are different files
(`signals_isolated`). The signals meet in the merge, and in an exception, which ends the pass for the signals after it.
-/

namespace EdgeCausal

open Lib

/-! ## Files -/

theorem splitext_append (path : List Char) : (splitext path).1 ++ (splitext path).2 = path := by
  unfold splitext
  dsimp only
  split
  · rw [List.splitAt_eq]
    exact List.take_append_drop _ _
  · exact List.append_nil path

/-- **No two signals share a file.** -/
theorem dbFor_injective (memoryDb : List Char) (primary : Signal) : Function.Injective (dbFor memoryDb primary) := by
  have hlonger : ∀ s : Signal, ∀ t : Signal, s ≠ primary → t = primary →
      dbFor memoryDb primary s ≠ dbFor memoryDb primary t := by
    intro s t hs ht heq
    unfold dbFor at heq
    rw [if_neg hs, if_pos ht] at heq
    have hlen := congrArg List.length heq
    conv_rhs at hlen => rw [← splitext_append memoryDb]
    simp only [List.length_append, List.length_cons] at hlen
    omega
  intro s t heq
  by_cases hs : s = primary <;> by_cases ht : t = primary
  · exact hs.trans ht.symm
  · exact absurd heq.symm (hlonger t s ht hs)
  · exact absurd heq (hlonger s t hs ht)
  · unfold dbFor at heq
    rw [if_neg hs, if_neg ht] at heq
    dsimp only at heq
    rw [List.append_cancel_right_eq, List.append_cancel_left_eq, List.cons.injEq] at heq
    exact String.toList_inj.mp heq.2

/-! ## Two services that agree on a signal -/

/-- The service that watches `sig` alone. -/
def ServiceConfig.only (svc : ServiceConfig) (sig : Signal) : ServiceConfig :=
  { svc with signals := svc.signals.filter (· = sig) }

/-- The inputs show `sig` the same. -/
structure SameFor (sig : Signal) (inp inp' : PassInput) : Prop where
  vectors : inp.vectors sig = inp'.vectors sig
  writeVectors : inp.writeVectors sig = inp'.writeVectors sig
  witness : inp.witness sig = inp'.witness sig
  breach : inp.breach = inp'.breach
  ts : inp.ts = inp'.ts
  now : inp.now = inp'.now

/-- The passes are the same to `sig`: its memory, the outputs of its passes, and what it rendered. -/
structure AgreeOn (sig : Signal) (cur cur' : PassRecord) : Prop where
  memory : cur.memories sig = cur'.memories sig
  outputs : cur.outputs.filter (fun out => out.1 = sig) = cur'.outputs.filter (fun out => out.1 = sig)
  rendered : cur.rendered.get? sig = cur'.rendered.get? sig

variable {est : Estimators} {sha1 : CaseKey → CaseId} {svc : ServiceConfig} {sig : Signal}
  {inp inp' : PassInput} {cur cur' : PassRecord}

/-- **Another signal's turn** is none to `sig`. -/
theorem AgreeOn.other (h : AgreeOn sig cur cur') {s : Signal} (hs : s ≠ sig) :
    AgreeOn sig (signalPass est sha1 svc inp cur s) cur' := by
  unfold signalPass
  split
  · exact h
  · dsimp only
    refine ⟨?_, ?_, ?_⟩
    · dsimp only
      rw [Function.update_of_ne (Ne.symm hs)]
      exact h.memory
    · dsimp only
      rw [List.filter_append, List.filter_singleton, decide_eq_false hs, cond_false, List.append_nil]
      exact h.outputs
    · dsimp only
      rw [Dict.get?_set, if_neg (Ne.symm hs)]
      exact h.rendered

/-- **Its own turn** is the same in both. -/
theorem AgreeOn.own (h : AgreeOn sig cur cur') (hinp : SameFor sig inp inp') :
    AgreeOn sig (signalPass est sha1 svc inp cur sig) (signalPass est sha1 (svc.only sig) inp' cur' sig) := by
  have hargs : passArgs svc sig (cur.memories sig) inp = passArgs (svc.only sig) sig (cur'.memories sig) inp' := by
    unfold passArgs
    rw [h.memory, hinp.vectors, hinp.witness, hinp.writeVectors, hinp.breach]
    rfl
  unfold signalPass
  rw [hinp.vectors]
  split
  · exact h
  · rw [hargs, h.memory, hinp.witness, hinp.ts, hinp.now]
    dsimp only
    refine ⟨?_, ?_, ?_⟩
    · dsimp only
      rw [Function.update_self, Function.update_self]
      rfl
    · dsimp only
      rw [List.filter_append, List.filter_append, h.outputs]
    · dsimp only
      rw [Dict.get?_set, Dict.get?_set, if_pos rfl, if_pos rfl]
      rfl

/-- **A pass**, signal after signal. -/
theorem servicePass_agree {mems mems' : Memories} (hmem : mems sig = mems' sig) (hinp : SameFor sig inp inp') :
    AgreeOn sig (servicePass est sha1 svc mems inp) (servicePass est sha1 (svc.only sig) mems' inp') := by
  have hfold : ∀ sigs : List Signal, ∀ {cur cur' : PassRecord}, AgreeOn sig cur cur' →
      AgreeOn sig (sigs.foldl (signalPass est sha1 svc inp) cur)
        ((sigs.filter (· = sig)).foldl (signalPass est sha1 (svc.only sig) inp') cur') := by
    intro sigs
    induction sigs with
    | nil => exact id
    | cons s sigs ih =>
        intro cur cur' h
        by_cases hs : s = sig
        · subst hs
          rw [List.filter_cons_of_pos (by simp)]
          exact ih (h.own hinp)
        · rw [List.filter_cons_of_neg (by simpa using hs)]
          exact ih (h.other hs)
  exact hfold svc.signals ⟨hmem, rfl, rfl⟩

/-- **Signals are isolated.** No two signals share a file; and over any run of passes that do not raise, whatever the
    other signals read and remember, each signal's memory, its passes and what it renders are turn by turn those of the
    service that watches it alone. -/
theorem signals_isolated (est : Estimators) (sha1 : CaseKey → CaseId) (svc : ServiceConfig) (memoryDb : List Char)
    (primary sig : Signal) :
    (∀ other, dbFor memoryDb primary other = dbFor memoryDb primary sig → other = sig) ∧
    ∀ (mems mems' : Memories) (inputs inputs' : List PassInput), mems sig = mems' sig →
      List.Forall₂ (SameFor sig) inputs inputs' →
      List.Forall₂ (AgreeOn sig) (serviceRun est sha1 svc mems inputs)
        (serviceRun est sha1 (svc.only sig) mems' inputs') := by
  refine ⟨fun other h => dbFor_injective memoryDb primary h, ?_⟩
  intro mems mems' inputs inputs' hmem hinputs
  induction hinputs generalizing mems mems' with
  | nil => exact .nil
  | cons hinp _ ih =>
      have hpass : AgreeOn sig (servicePass est sha1 svc mems _) (servicePass est sha1 (svc.only sig) mems' _) :=
        servicePass_agree hmem hinp
      exact .cons hpass (ih _ _ hpass.memory)

/-! ### A storm on two signals -/

def twoSignals : ServiceConfig := { idleService with signals := ["psi_io", "psi_cpu"] }

/-- The archiver and the database stall on the disk; on the processor they do as told. -/
def crossInput (cpu : Dict Pod Series) : PassInput :=
  let stalls : Series := List.replicate 20 0 ++ List.replicate 6 5
  PassInput.ofWindow twoSignals
    (fun sig =>
      if sig = "psi_io" then .ofList [("log-archiver-6d-x1", stalls), ("timescaledb-0-y2", stalls)]
      else if sig = "psi_cpu" then cpu
      else ∅) [] 100 105

/-- The processor stalls, too. -/
def cpuStalls : Dict Pod Series :=
  .ofList [("timescaledb-0-y2", List.replicate 20 0 ++ List.replicate 6 5), ("edge-ui-5b-w4", List.replicate 26 1)]

/-- Rows of both workloads at rest, for one signal. -/
def restedFor (sig : Signal) : Memory :=
  { Memory.empty with baselines := .ofList (["log-archiver", "timescaledb"].map fun wl => ((wl, sig), ⟨0, 0, 20, 0⟩)) }

/-- Two signals that storm, and the first of them alone: the second one's window and memory are other ones. -/
theorem signals_isolated_storm :
    (crossInput cpuStalls).vectors "psi_cpu" ≠ (crossInput ∅).vectors "psi_cpu" ∧
    List.Forall₂ (AgreeOn "psi_io")
      (serviceRun numericEstimators (fun _ => 0) twoSignals restedFor (List.replicate 3 (crossInput cpuStalls)))
      (serviceRun numericEstimators (fun _ => 0) (twoSignals.only "psi_io") (fun _ => restedFor "psi_io")
        (List.replicate 3 (crossInput ∅))) := by
  refine ⟨by decide +kernel, ?_⟩
  refine (signals_isolated numericEstimators (fun _ => 0) twoSignals ['l', '3', '.', 'd', 'b'] "psi_io" "psi_io").2
    restedFor (fun _ => restedFor "psi_io") _ _ rfl ?_
  refine List.forall₂_iff_get.mpr ⟨rfl, ?_⟩
  intro i _ _
  rw [List.get_eq_getElem, List.get_eq_getElem, List.getElem_replicate, List.getElem_replicate]
  exact ⟨rfl, rfl, rfl, rfl, rfl, rfl⟩

end EdgeCausal
