import EdgeCausal.Engine.Schema

/-!
# `Correctness.Migration` — opening a file, whatever happened to it before

The archive survives every change of the schema, and a file may be abandoned at any step of opening, any number of
times: the open that gets through finds what the first would have made of it (`migration_restartable`). Once a file
is of this version opening it again changes no belief, so a restart of the process is no event to the memory.
-/

namespace EdgeCausal

open Lib Lib.Conn

/-! ## The memory under each statement -/

/-- The same memory, a case without a family counting as its own. -/
structure SameMemory (m m' : Memory) : Prop where
  edgeMemory : m'.edgeMemory = m.edgeMemory
  cases : m'.cases.mapVals Database.ownFamily = m.cases.mapVals Database.ownFamily
  caseObservations : m'.caseObservations = m.caseObservations
  graphSnapshots : m'.graphSnapshots = m.graphSnapshots
  baselines : m'.baselines = m.baselines
  openMistakes : m'.openMistakes = m.openMistakes

theorem SameMemory.refl (m : Memory) : SameMemory m m := ⟨rfl, rfl, rfl, rfl, rfl, rfl⟩

theorem SameMemory.trans {m m' m'' : Memory} (h : SameMemory m m') (h' : SameMemory m' m'') : SameMemory m m'' :=
  ⟨h'.edgeMemory.trans h.edgeMemory, h'.cases.trans h.cases, h'.caseObservations.trans h.caseObservations,
    h'.graphSnapshots.trans h.graphSnapshots, h'.baselines.trans h.baselines, h'.openMistakes.trans h.openMistakes⟩

/-- A named family is kept, so filling families in twice is filling them in once. -/
theorem mapVals_ownFamily_idem (cases : Dict CaseId CaseRow) :
    (cases.mapVals Database.ownFamily).mapVals Database.ownFamily = cases.mapVals Database.ownFamily := by
  apply Dict.ext'
  show (cases.entries.map _).map _ = cases.entries.map _
  rw [List.map_map]
  rfl

namespace Database
variable {db db' : Database}

@[simp] theorem memory_createEdgeMemory : db.createEdgeMemory.memory = db.memory := by
  unfold createEdgeMemory memory
  cases db.edgeMemory with
  | none => rfl
  | some t => rfl

@[simp] theorem memory_createCases : db.createCases.memory = db.memory := by
  unfold createCases memory
  cases db.cases with
  | none => rfl
  | some t => rfl

@[simp] theorem memory_clearEdgeMemory : db.clearEdgeMemory.memory = { db.memory with edgeMemory := ∅ } := by
  unfold clearEdgeMemory memory
  cases db.edgeMemory with
  | none => rfl
  | some t => rfl

@[simp] theorem memory_addBaseConf : db.addBaseConf.memory = db.memory := by
  unfold addBaseConf memory
  cases db.edgeMemory with
  | none => rfl
  | some t => rfl

@[simp] theorem memory_addFamilyId : db.addFamilyId.memory = db.memory := by
  unfold addFamilyId memory
  cases db.cases with
  | none => rfl
  | some t => rfl

@[simp] theorem memory_setVersion : db.setVersion.memory = db.memory := rfl

@[simp] theorem memory_insertModelVersion {key : ModelKey} {v : ModelVersion} :
    (db.insertModelVersion key v).memory = db.memory := rfl

theorem sameMemory_fillFamilies : SameMemory db.memory db.fillFamilies.memory := by
  refine ⟨rfl, ?_, rfl, rfl, rfl, rfl⟩
  unfold fillFamilies memory
  cases db.cases with
  | none => rfl
  | some t =>
      dsimp only [Option.map_some, Option.getD_some]
      split
      · exact mapVals_ownFamily_idem t.rows
      · rfl

@[simp] theorem memory_insertMistake {ts : ℚ} {incident : Option String} {predicted correction notes : String} :
    (db.insertMistake ts incident predicted correction notes).memory
      = { db.memory with openMistakes := db.memory.openMistakes + 1 } := by
  unfold insertMistake memory
  rw [List.countP_append]
  rfl

theorem version_setVersion : db.setVersion.version = some schemaVersion := by
  show (db.schemaMeta.reinsert _ _).get? _ = _
  rw [Dict.get?_reinsert, if_pos rfl]

end Database

/-! ## Opening -/

/-- What a step does to what the connection sees. -/
def OpenStep.apply (db : Database) : OpenStep → Database
  | .define stmt => stmt db
  | .change stmt => stmt db
  | .commit => db

theorem run_view (s : Session) (step : OpenStep) : (step.run s).conn.view = step.apply s.conn.view := by
  cases step with
  | define stmt =>
      show (s.define stmt).conn.view = stmt s.conn.view
      unfold Session.define
      split <;> rfl
  | change stmt => rfl
  | commit => rfl

theorem foldl_run_view (steps : List OpenStep) (s : Session) :
    (steps.foldl OpenStep.run s).conn.view = steps.foldl OpenStep.apply s.conn.view := by
  induction steps generalizing s with
  | nil => rfl
  | cons step steps ih => rw [List.foldl_cons, ih, run_view, List.foldl_cons]

/-- The file once its tables exist. -/
def Database.created (db : Database) : Database := db.createEdgeMemory.createCases

/-- The file once it is migrated. -/
def Database.migrated (db : Database) : Database := (migrateSteps db.created).foldl OpenStep.apply db.created

theorem modelVersions_migrated (db : Database) : db.migrated.modelVersions = db.modelVersions := by
  unfold Database.migrated migrateSteps
  split
  · rfl
  · rw [List.foldl_append, List.foldl_append, List.foldl_append]
    split <;> split <;> split <;> rfl

theorem get?_insertModelVersion (key k : ModelKey) (v : ModelVersion) (db : Database) :
    (db.insertModelVersion key v).modelVersions.get? k
      = if k = key then (db.modelVersions.get? key).or (some v) else db.modelVersions.get? k := by
  unfold Database.insertModelVersion
  split
  · rename_i w hw
    dsimp only
    split
    · rename_i hk
      rw [hk, hw]
      rfl
    · rfl
  · rename_i hw
    dsimp only
    rw [Dict.get?_set, hw]
    rfl

/-- **A file that opens** is created, migrated and signed. -/
theorem openDatabase_eq (key : ModelKey) (v : ModelVersion) (db : Database) :
    openDatabase key v db = db.migrated.insertModelVersion key v := by
  have hview := foldl_run_view (openSteps key v db) (.connect db)
  have hdurable : ((openSteps key v db).foldl OpenStep.run (.connect db)).conn.durable
      = ((openSteps key v db).foldl OpenStep.run (.connect db)).conn.view := by
    have hlast : openSteps key v db = (createSteps ++ migrateSteps db.created ++ [.commit]
        ++ [.change (Database.insertModelVersion key v)]) ++ [.commit] := by
      unfold openSteps Database.created
      rw [List.append_assoc _ [OpenStep.change _] [OpenStep.commit]]
      rfl
    rw [hlast, List.foldl_append]
    rfl
  unfold openDatabase
  rw [hdurable, hview]
  unfold openSteps
  rw [List.foldl_append, List.foldl_append, List.foldl_append]
  rfl

/-- A recorded model keeps the date of its first open: later opens with the same settings add no row. -/
theorem models_recorded (key : ModelKey) (opens : List (ModelKey × ModelVersion)) (db : Database) :
    (opens.foldl (fun d o => openDatabase o.1 o.2 d) db).modelVersions.get? key
      = (db.modelVersions.get? key).or ((opens.find? fun o => o.1 = key).map Prod.snd) := by
  induction opens generalizing db with
  | nil => simp
  | cons o opens ih =>
      rw [List.foldl_cons, ih, openDatabase_eq, get?_insertModelVersion, modelVersions_migrated, List.find?_cons]
      by_cases ho : o.1 = key
      · subst ho
        cases db.modelVersions.get? o.1 <;> simp
      · rw [if_neg (Ne.symm ho), decide_eq_false ho]

/-- What the memory should be of a file that is opened: rows keyed by pods, as in the first version, are dropped. -/
def Database.carried (db : Database) : Memory :=
  if db.version = some "l3-memory-v1" then { db.memory with edgeMemory := ∅ } else db.memory

theorem migrated_memory (db : Database) :
    db.migrated.version = some schemaVersion ∧ SameMemory db.carried db.migrated.memory := by
  have hversion : db.created.version = db.version := rfl
  have hmemory : db.created.memory = db.memory := by simp [Database.created]
  unfold Database.migrated migrateSteps
  rw [hversion]
  by_cases hcur : db.version = some schemaVersion
  · rw [if_pos hcur]
    refine ⟨hversion.trans hcur, ?_⟩
    unfold Database.carried
    rw [hcur, if_neg (by decide)]
    exact hmemory ▸ .refl _
  · rw [if_neg hcur, List.foldl_append, List.foldl_append, List.foldl_append]
    refine ⟨Database.version_setVersion, ?_⟩
    show SameMemory db.carried (Database.setVersion _).memory
    rw [Database.memory_setVersion]
    set cleared := (if db.version = some "l3-memory-v1" then [OpenStep.change Database.clearEdgeMemory]
      else []).foldl OpenStep.apply db.created with hcleared
    have h1 : cleared.memory = db.carried := by
      rw [hcleared]
      unfold Database.carried
      split
      · show db.created.clearEdgeMemory.memory = _
        rw [Database.memory_clearEdgeMemory, hmemory]
      · exact hmemory
    set floored := (if (db.created.edgeMemory.map EdgeTable.baseConfColumn).getD false then []
      else [OpenStep.define Database.addBaseConf]).foldl OpenStep.apply cleared with hfloored
    have h2 : floored.memory = cleared.memory := by
      rw [hfloored]
      split
      · rfl
      · exact Database.memory_addBaseConf
    rw [← h1, ← h2]
    split
    · exact .refl _
    · have hsame : SameMemory floored.addFamilyId.memory floored.addFamilyId.fillFamilies.memory :=
        Database.sameMemory_fillFamilies
      rwa [Database.memory_addFamilyId] at hsame

/-! ## Opens that do not get through -/

/-- What opens of `db` may have left behind: a file of its version with its memory, or a migrated one. -/
def Left (db d : Database) : Prop :=
  (d.version = db.version ∧ SameMemory db.memory d.memory) ∨
    (d.version = some schemaVersion ∧ SameMemory db.carried d.memory)

theorem Left.refl (db : Database) : Left db db := Or.inl ⟨rfl, .refl _⟩

/-- Statements that change neither the version nor the memory. -/
theorem Left.step {db d d' : Database} (h : Left db d) (hversion : d'.version = d.version)
    (hmemory : d'.memory = d.memory) : Left db d' := by
  unfold Left
  rw [hversion, hmemory]
  exact h

/-- Whatever was left behind, a migration that gets through makes the same of it. -/
theorem Left.migrated {db d : Database} (h : Left db d) :
    d.migrated.version = some schemaVersion ∧ SameMemory db.carried d.migrated.memory := by
  obtain ⟨hversion, hmemory⟩ := migrated_memory d
  refine ⟨hversion, ?_⟩
  rcases h with ⟨hsame, hmem⟩ | ⟨hcur, hmem⟩
  · have hcarried : SameMemory db.carried d.carried := by
      unfold Database.carried
      rw [hsame]
      split
      · exact ⟨rfl, hmem.cases, hmem.caseObservations, hmem.graphSnapshots, hmem.baselines, hmem.openMistakes⟩
      · exact hmem
    exact hcarried.trans hmemory
  · have hcarried : d.carried = d.memory := by
      unfold Database.carried
      rw [hcur, if_neg (by decide)]
    exact hmem.trans (hcarried ▸ hmemory)

/-- A step that is not durable at once, or changes the shape of a table only. -/
def Harmless : OpenStep → Prop
  | .define stmt => ∀ d : Database, (stmt d).version = d.version ∧ (stmt d).memory = d.memory
  | .change _ => True
  | .commit => False

theorem harmless_steps (d : Database) : ∀ step ∈ createSteps ++ migrateSteps d, Harmless step := by
  intro step hstep
  unfold createSteps migrateSteps at hstep
  simp only [List.mem_append, List.mem_cons, List.not_mem_nil, or_false] at hstep
  rcases hstep with (rfl | rfl) | hstep
  · exact fun d => ⟨rfl, by simp⟩
  · exact fun d => ⟨rfl, by simp⟩
  · split at hstep
    · exact absurd hstep List.not_mem_nil
    · simp only [List.mem_append, List.mem_singleton] at hstep
      rcases hstep with ((hstep | hstep) | hstep) | rfl
      · split at hstep
        · obtain rfl := List.mem_singleton.mp hstep
          trivial
        · exact absurd hstep List.not_mem_nil
      · split at hstep
        · exact absurd hstep List.not_mem_nil
        · obtain rfl := List.mem_singleton.mp hstep
          exact fun d => ⟨rfl, by simp⟩
      · split at hstep
        · exact absurd hstep List.not_mem_nil
        · rcases List.mem_cons.mp hstep with rfl | hstep
          · exact fun d => ⟨rfl, by simp⟩
          · obtain rfl := List.mem_singleton.mp hstep
            trivial
      · trivial

/-- A session that has committed nothing but shapes. -/
def Uncommitted (db : Database) (s : Session) : Prop :=
  Left db s.conn.durable ∧ (s.inTransaction = false → s.conn.durable = s.conn.view)

theorem Uncommitted.run {db : Database} {s : Session} (h : Uncommitted db s) {step : OpenStep}
    (hstep : Harmless step) : Uncommitted db (step.run s) := by
  obtain ⟨hleft, hview⟩ := h
  cases step with
  | commit => exact absurd hstep id
  | change stmt => exact ⟨hleft, fun htx => absurd htx (by simp [OpenStep.run, Session.change])⟩
  | define stmt =>
      show Uncommitted db (s.define stmt)
      unfold Session.define
      by_cases htx : s.inTransaction = true
      · rw [if_pos htx]
        exact ⟨hleft, fun hno => absurd (htx.symm.trans hno) (by simp)⟩
      · rw [if_neg htx]
        refine ⟨?_, fun _ => rfl⟩
        have heq : s.conn.durable = s.conn.view := hview (by simpa using htx)
        show Left db (stmt s.conn.view)
        rw [← heq]
        exact hleft.step (hstep s.conn.durable).1 (hstep s.conn.durable).2

theorem uncommitted_foldl {db : Database} {steps : List OpenStep} (hsteps : ∀ step ∈ steps, Harmless step)
    {s : Session} (h : Uncommitted db s) : Uncommitted db (steps.foldl OpenStep.run s) :=
  List.foldlRecOn (motive := Uncommitted db) steps OpenStep.run h fun _ hs step hstep => hs.run (hsteps step hstep)

/-- **An open that dies** leaves what an earlier one may have left. -/
theorem Left.killed {db d : Database} (h : Left db d) (key : ModelKey) (v : ModelVersion) (k : ℕ) :
    Left db (openKilled key v k d) := by
  have hstart : Uncommitted db (.connect d) := ⟨h, fun _ => rfl⟩
  set work := createSteps ++ migrateSteps d.created with hwork
  have hharmless : ∀ step ∈ work, Harmless step := harmless_steps d.created
  have hsteps : openSteps key v d
      = work ++ [.commit, .change (Database.insertModelVersion key v), .commit] := by
    unfold openSteps
    rw [List.append_assoc]
    rfl
  have hdone : (work.foldl OpenStep.run (.connect d)).conn.view = d.migrated := by
    rw [foldl_run_view, hwork, List.foldl_append]
    rfl
  have hopened : Left db d.migrated := Or.inr h.migrated
  unfold openKilled openFirst
  rw [hsteps, List.take_append]
  rcases Nat.le_total k work.length with hk | hk
  · -- nothing was committed
    rw [Nat.sub_eq_zero_of_le hk, List.take_zero, List.append_nil]
    exact (uncommitted_foldl (fun step hstep => hharmless step (List.mem_of_mem_take hstep)) hstart).1
  · rw [List.take_of_length_le hk, List.foldl_append]
    set s := work.foldl OpenStep.run (.connect d) with hs
    rcases hrest : k - work.length with _ | _ | _ | n
    · exact (uncommitted_foldl hharmless hstart).1
    · show Left db s.conn.view
      rw [hdone]
      exact hopened
    · show Left db s.conn.view
      rw [hdone]
      exact hopened
    · rw [List.take_of_length_le (by simp)]
      show Left db (Database.insertModelVersion key v s.conn.view)
      rw [hdone]
      exact hopened.step rfl rfl

/-- An attempt to open that dies after so many steps. -/
structure FatalOpen where
  key : ModelKey
  version : ModelVersion
  steps : ℕ

/-- **Opening is restartable.** However often opening a file was broken off, and wherever: the open that gets
    through leaves a file of this version whose memory is that of the file it all began with, the rows of the first
    version's key scheme dropped and a case without a family read as a family of its own; from then on every restart
    finds the memory as it is. -/
theorem migration_restartable (db : Database) (fatal : List FatalOpen) (key : ModelKey) (v : ModelVersion) :
    let file := openDatabase key v (fatal.foldl (fun d o => openKilled o.key o.version o.steps d) db)
    file.version = some schemaVersion ∧ SameMemory db.carried file.memory ∧
      ∀ key' v', (openDatabase key' v' file).memory = file.memory := by
  intro file
  have hleft : Left db (fatal.foldl (fun d o => openKilled o.key o.version o.steps d) db) :=
    List.foldlRecOn (motive := Left db) fatal _ (.refl db) fun d hd o _ => hd.killed o.key o.version o.steps
  have hfile : file = (fatal.foldl (fun d o => openKilled o.key o.version o.steps d) db).migrated.insertModelVersion
      key v := openDatabase_eq key v _
  obtain ⟨hversion, hmemory⟩ := hleft.migrated
  rw [hfile]
  refine ⟨hversion, hmemory, ?_⟩
  intro key' v'
  set d := (fatal.foldl (fun d o => openKilled o.key o.version o.steps d) db).migrated.insertModelVersion key v
  have hcur : d.version = some schemaVersion := hversion
  rw [openDatabase_eq, Database.memory_insertModelVersion]
  unfold Database.migrated migrateSteps
  rw [show d.created.version = d.version from rfl, hcur, if_pos rfl]
  simp [Database.created]

end EdgeCausal
