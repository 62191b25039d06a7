import EdgeCausal.Engine.Merge

/-!
# `Engine.Service` — the service loop

Each pass runs every signal against its own memory (threshold lookup, `runPass`, `observe`) and merges
the rendered graphs. `serviceRun` is the loop over a sequence of inputs, one record a pass.
-/

namespace EdgeCausal

open Lib

/-- The service's settings, all but the last three shared by the memories of all signals. -/
structure ServiceConfig where
  signals : List Signal
  memory : MemoryConfig
  storage : List Workload
  copressureMin : ℚ
  analysisWindow : ℕ
  resetWindow : ℕ

/-- The configuration of one signal's memory: only the disk domain keeps a structural backbone. -/
def configFor (svc : ServiceConfig) (signal : Signal) : MemoryConfig :=
  { svc.memory with
    signal := signal
    prior := if signal = "psi_io" then svc.memory.prior else 0
    floorFrac := if signal = "psi_io" then svc.memory.floorFrac else 0 }

/-- The source signal of each psi class. -/
def signalSource (signal : Signal) : Option Signal :=
  if signal = "psi_io" then some "io_write"
  else if signal = "psi_cpu" then some "cpu"
  else none

/-- The service's own copy of the pod-to-workload rule. -/
def workload (pod : Pod) : Workload := stableWorkload pod

/-- The physical witness of a signal: the storage quartet for the disk signal, one node otherwise, and
    co-pressure among the pods stalled in the last six samples. -/
def witnessFor (svc : ServiceConfig) (signal : Signal) (vectors : Dict Pod Series) : Witness :=
  let hot := vectors.keys.filter fun p =>
    svc.copressureMin < maxOf (lastN 6 ((vectors.get? p).getD []))
  { ebpfEdges := []
    psiCopressure := pairs hot
    sharedRelation :=
      if signal = "psi_io" then
        (pairs vectors.keys).filter fun ab =>
          workload ab.1 ∈ svc.storage ∧ workload ab.2 ∈ svc.storage
      else []
    sameNode := if signal = "psi_io" then [] else pairs vectors.keys }

/-- What one pass of the loop reads. -/
structure PassInput where
  vectors : Signal → Dict Pod Series
  writeVectors : Signal → Option (Dict Pod Series)
  witness : Signal → Witness
  breach : List Pod
  ts : ℚ
  now : ℚ

/-- The input the loop builds from one window: sources by signal class, witnesses by `witnessFor`. -/
def PassInput.ofWindow (svc : ServiceConfig) (vecBySig : Signal → Dict Pod Series) (breach : List Pod)
    (ts now : ℚ) : PassInput where
  vectors := vecBySig
  writeVectors sig := (signalSource sig).bind fun s =>
    if (vecBySig s).entries = [] then none else some (vecBySig s)
  witness sig := witnessFor svc sig (vecBySig sig)
  breach := breach
  ts := ts
  now := now

/-- The memories of the signals. -/
abbrev Memories := Signal → Memory

/-- The arguments a signal's pass is run with. -/
def passArgs (svc : ServiceConfig) (sig : Signal) (m : Memory) (inp : PassInput) : PassArgs where
  vectors := inp.vectors sig
  witness := inp.witness sig
  sloBreach := if inp.breach = [] then none else some inp.breach
  caps := ∅
  window := some svc.analysisWindow
  writeVectors := inp.writeVectors sig
  baselines := some ((inp.vectors sig).mapVals fun pod _ =>
    baselineThreshold (configFor svc sig) m (workload pod))
  recent := some svc.resetWindow

variable (est : Estimators) (sha1 : CaseKey → CaseId) (svc : ServiceConfig)

/-- What a pass has done so far. -/
structure PassRecord where
  memories : Memories
  outputs : List (Signal × CausalGraph)
  rendered : Dict Signal ServedGraph

/-- One signal of a pass; a signal without vectors is skipped. -/
def signalPass (inp : PassInput) (cur : PassRecord) (sig : Signal) : PassRecord :=
  if (inp.vectors sig).entries = [] then cur
  else
    let out := runPass est (passArgs svc sig (cur.memories sig) inp)
    let (m, served) := observe (configFor svc sig) sha1 (cur.memories sig) out (inp.vectors sig)
      (some (inp.witness sig)) inp.ts inp.now
    { memories := Function.update cur.memories sig m
      outputs := cur.outputs ++ [(sig, out)]
      rendered := cur.rendered.set sig served }

/-- One pass of the loop. -/
def servicePass (mems : Memories) (inp : PassInput) : PassRecord :=
  svc.signals.foldl (signalPass est sha1 svc inp) ⟨mems, [], ∅⟩

/-- The graph a pass serves. -/
def PassRecord.merged (cur : PassRecord) : MergedGraph :=
  if cur.rendered.entries = [] then
    ⟨[], [], [], [], ⟨svc.signals, none, 0, none, none, 0, 0, 0⟩⟩
  else mergeGraphs cur.rendered svc.signals.head?

/-- The loop over a sequence of inputs. -/
def serviceRun (mems : Memories) : List PassInput → List PassRecord
  | [] => []
  | inp :: rest =>
      let cur := servicePass est sha1 svc mems inp
      cur :: serviceRun cur.memories rest

end EdgeCausal
