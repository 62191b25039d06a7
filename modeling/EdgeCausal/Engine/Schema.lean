import EdgeCausal.Engine.State
import EdgeCausal.Storage.Transaction

/-!
# `Engine.Schema` — the database file and how it is opened

A file may be new, of this version or of an earlier one. Opening it creates the tables that are missing, migrates
it once, keyed on the stored version, and records the version of the model. The driver begins a transaction before
it changes rows and leaves other statements alone: a table is altered within the transaction when one is open, and
at once when none is.
-/

namespace EdgeCausal

open Lib

/-- `SCHEMA_VERSION` -/
def schemaVersion : String := "l3-memory-v5"

/-! ## The file of a signal -/

/-- `os.path.splitext`: the extension begins with the last dot of the last component; dots that component begins
    with do not count. -/
def splitext (path : List Char) : List Char × List Char :=
  let file := path.rtakeWhile fun c => c ≠ '/'
  let after := file.rtakeWhile fun c => c ≠ '.'
  let stem := file.take (file.length - after.length - 1)
  if '.' ∈ file ∧ ∃ c ∈ stem, c ≠ '.' then path.splitAt (path.length - after.length - 1) else (path, [])

/-- `_db_for`: the primary signal keeps the path, the others put their name before its extension. -/
def dbFor (memoryDb : List Char) (primary signal : Signal) : List Char :=
  if signal = primary then memoryDb
  else
    let (base, ext) := splitext memoryDb
    base ++ '.' :: signal.toList ++ ext

/-! ## The file -/

/-- The edge table: a file older than the learned floors has no column for them, which reads as the default. -/
structure EdgeTable where
  baseConfColumn : Bool
  rows : Dict EdgeKey EdgeRow
  absent : baseConfColumn = false → ∀ row ∈ rows.values, row.baseConf = 0

/-- The case table: a file older than the families has no column for them. -/
structure CaseTable where
  familyColumn : Bool
  rows : Dict CaseId CaseRow
  absent : familyColumn = false → ∀ row ∈ rows.values, row.familyId = none

/-- The unique key of a recorded model. -/
structure ModelKey where
  component : String
  version : String
  params : String
deriving DecidableEq

/-- The other columns of a recorded model. -/
structure ModelVersion where
  ts : ℚ
  notes : String
deriving DecidableEq

structure Mistake where
  ts : ℚ
  incidentId : Option String
  predicted : String
  correction : String
  notes : String
  status : String
deriving DecidableEq

/-- A database file. The two tables that were altered over time may be missing or lack a column; a table that is
    missing otherwise is as good as empty. -/
structure Database where
  schemaMeta : Dict String String
  edgeMemory : Option EdgeTable
  cases : Option CaseTable
  caseObservations : List CaseObservation
  graphSnapshots : List (ℚ × CausalGraph)
  modelVersions : Dict ModelKey ModelVersion
  mistakes : List Mistake
  baselines : Dict (Workload × Signal) Baseline

namespace Database

/-- A file that does not exist yet. -/
def new : Database := ⟨∅, none, none, [], [], ∅, [], ∅⟩

/-- The stored version. -/
def version (db : Database) : Option String := db.schemaMeta.get? "schema_version"

/-- What the memory of a signal reads from the file. -/
def memory (db : Database) : Memory where
  edgeMemory := (db.edgeMemory.map EdgeTable.rows).getD ∅
  cases := (db.cases.map CaseTable.rows).getD ∅
  caseObservations := db.caseObservations
  graphSnapshots := db.graphSnapshots
  baselines := db.baselines
  openMistakes := db.mistakes.countP fun r => r.status = "open"

/-! ## Statements -/

/-- `CREATE TABLE IF NOT EXISTS`, for the two tables where it matters. -/
def createEdgeMemory (db : Database) : Database :=
  { db with edgeMemory := some (db.edgeMemory.getD ⟨true, ∅, fun _ _ h => absurd h (by simp)⟩) }

def createCases (db : Database) : Database :=
  { db with cases := some (db.cases.getD ⟨true, ∅, fun _ _ h => absurd h (by simp)⟩) }

/-- `DELETE FROM edge_memory` -/
def clearEdgeMemory (db : Database) : Database :=
  { db with edgeMemory := db.edgeMemory.map fun t => { t with rows := ∅, absent := fun _ _ h => absurd h (by simp) } }

/-- `ALTER TABLE edge_memory ADD COLUMN base_conf REAL NOT NULL DEFAULT 0` -/
def addBaseConf (db : Database) : Database :=
  { db with edgeMemory := db.edgeMemory.map fun t => ⟨true, t.rows, fun h => absurd h (by simp)⟩ }

/-- `ALTER TABLE cases ADD COLUMN family_id TEXT` -/
def addFamilyId (db : Database) : Database :=
  { db with cases := db.cases.map fun t => ⟨true, t.rows, fun h => absurd h (by simp)⟩ }

/-- Its own id as the family of a case that has none. -/
def ownFamily (id : CaseId) (row : CaseRow) : CaseRow := { row with familyId := some (row.familyId.getD id) }

/-- `UPDATE cases SET family_id=id WHERE family_id IS NULL` -/
def fillFamilies (db : Database) : Database :=
  { db with cases := db.cases.map fun t =>
      if t.familyColumn then ⟨true, t.rows.mapVals ownFamily, fun h => absurd h (by simp)⟩ else t }

/-- `INSERT OR REPLACE INTO schema_meta` -/
def setVersion (db : Database) : Database :=
  { db with schemaMeta := db.schemaMeta.reinsert "schema_version" schemaVersion }

/-- `INSERT OR IGNORE INTO model_versions` -/
def insertModelVersion (key : ModelKey) (v : ModelVersion) (db : Database) : Database :=
  { db with modelVersions := match db.modelVersions.get? key with
      | some _ => db.modelVersions
      | none => db.modelVersions.set key v }

/-- `INSERT INTO mistakes`; a mistake is open until someone settles it. -/
def insertMistake (ts : ℚ) (incidentId : Option String) (predicted correction notes : String) (db : Database) :
    Database :=
  { db with mistakes := db.mistakes ++ [⟨ts, incidentId, predicted, correction, notes, "open"⟩] }

end Database

/-! ## A session -/

/-- A connection, and whether a transaction is open on it. -/
structure Session where
  conn : Conn Database
  inTransaction : Bool

namespace Session

/-- A connection just made. -/
def connect (db : Database) : Session := ⟨.clean db, false⟩

/-- A statement that changes rows begins a transaction. -/
def change (s : Session) (stmt : Database → Database) : Session := ⟨s.conn.exec stmt, true⟩

/-- A statement that changes a table's shape; on its own it is durable at once. -/
def define (s : Session) (stmt : Database → Database) : Session :=
  if s.inTransaction then { s with conn := s.conn.exec stmt } else { s with conn := (s.conn.exec stmt).commit }

def commit (s : Session) : Session := ⟨s.conn.commit, false⟩

end Session

/-- One step of opening. -/
inductive OpenStep where
  | define (stmt : Database → Database)
  | change (stmt : Database → Database)
  | commit

def OpenStep.run (s : Session) : OpenStep → Session
  | .define stmt => s.define stmt
  | .change stmt => s.change stmt
  | .commit => s.commit

/-- `_init_schema`, up to the migration. -/
def createSteps : List OpenStep := [.define Database.createEdgeMemory, .define Database.createCases]

/-- `_migrate` on a file whose tables exist: once for each version. -/
def migrateSteps (db : Database) : List OpenStep :=
  if db.version = some schemaVersion then []
  else
    (if db.version = some "l3-memory-v1" then [.change Database.clearEdgeMemory] else [])
      ++ (if (db.edgeMemory.map EdgeTable.baseConfColumn).getD false then [] else [.define Database.addBaseConf])
      ++ (if (db.cases.map CaseTable.familyColumn).getD false then []
          else [.define Database.addFamilyId, .change Database.fillFamilies])
      ++ [.change Database.setVersion]

/-- Everything that is done when a file is opened. -/
def openSteps (key : ModelKey) (v : ModelVersion) (db : Database) : List OpenStep :=
  createSteps ++ migrateSteps (db.createEdgeMemory.createCases) ++ [.commit]
    ++ [.change (Database.insertModelVersion key v), .commit]

/-- The session after the first `k` steps. -/
def openFirst (key : ModelKey) (v : ModelVersion) (k : ℕ) (db : Database) : Session :=
  ((openSteps key v db).take k).foldl OpenStep.run (.connect db)

/-- The file once it is open. -/
def openDatabase (key : ModelKey) (v : ModelVersion) (db : Database) : Database :=
  ((openSteps key v db).foldl OpenStep.run (.connect db)).conn.durable

/-- The file when the process dies after `k` steps. -/
def openKilled (key : ModelKey) (v : ModelVersion) (k : ℕ) (db : Database) : Database :=
  (openFirst key v k db).conn.durable

/-- `bootstrap_graph`: the memory rendered before a pod is known. -/
def bootstrapGraph (cfg : MemoryConfig) (m : Memory) (now : ℚ) : ServedGraph :=
  { render cfg m.edgeMemory ⟨[], [], [], [], 0, 0, 0⟩ ∅ now with stats := some m.stats }

end EdgeCausal
