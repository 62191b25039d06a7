import EdgeCausal.Encoding.JsonRead
import EdgeCausal.Engine.CaseId

/-!
# `Engine.Columns` — the case library as it is stored

A table holds text. The lists of a case are JSON documents in its columns, written once when the case is opened and
read again for every fingerprint that comes after it. Here the promotion of a case works on the columns, as the
code's does; where a column holds anything but what is written there, there is no reading.
-/

namespace EdgeCausal

open Lib

/-! ## Columns -/

/-- `_load_json`: a column that is empty or no document reads as the default. -/
def loadJson (value : Option (List Char)) (default : Json.Value) : Json.Value :=
  match value with
  | none => default
  | some text => if text = [] then default else (Json.loads text).getD default

/-- `_json` of a list of strings. -/
def jsonStrings (l : List String) : List Char := Json.array (l.map Json.string)

/-- `_json` of the motif, members in key order. -/
def jsonMotif (motif : List (Workload × Workload)) : List Char :=
  Json.array (motif.map fun m => Json.object [("dst", Json.string m.2), ("src", Json.string m.1)])

/-- `_json(edge["evidence"])`. -/
def jsonEvidence (evidence : List Evidence) : List Char := jsonStrings (evidence.map Evidence.token)

/-- A string of a document. -/
def asString : Json.Value → Option String
  | .string s => some s
  | _ => none

/-- An item of a stored motif, `(m["src"], m["dst"])`. -/
def asPair (m : Json.Value) : Option (Workload × Workload) :=
  match (m.get? "src").bind asString, (m.get? "dst").bind asString with
  | some src, some dst => some (src, dst)
  | _, _ => none

/-- The items of a column that holds a list, `[]` by default. -/
def loadItems {α : Type} (item : Json.Value → Option α) (column : List Char) : Option (List α) :=
  match loadJson (some column) (.array []) with
  | .array items => items.mapM item
  | _ => none

def loadStrings (column : List Char) : Option (List String) := loadItems asString column

def loadMotif (column : List Char) : Option (List (Workload × Workload)) := loadItems asPair column

/-! ## Rows -/

/-- A row of the table of cases. -/
structure CaseColumns where
  keyJson : List Char
  stressorsJson : List Char
  victimsJson : List Char
  signal : Signal
  witnessKind : Option String
  motifJson : List Char
  occurrences : ℕ
  firstSeenTs : ℚ
  lastSeenTs : ℚ
  typicalLeadTimeS : Option ℚ
  familyId : Option CaseId
deriving DecidableEq

/-- The row that is inserted for a fingerprint. -/
def insertedColumns (fp : CaseKey) (ts : ℚ) (lead : Option ℚ) (family : CaseId) : CaseColumns where
  keyJson := keyJson fp
  stressorsJson := jsonStrings fp.stressors
  victimsJson := jsonStrings fp.victims
  signal := fp.signal
  witnessKind := fp.witnessKind.map Evidence.token
  motifJson := jsonMotif fp.motif
  occurrences := 1
  firstSeenTs := ts
  lastSeenTs := ts
  typicalLeadTimeS := lead
  familyId := some family

/-- `_case_sim`, from the columns. -/
def columnSim (fp : CaseKey) (row : CaseColumns) : Option ℚ :=
  if fp.signal ≠ row.signal ∨ (fp.witnessKind.map Evidence.token).getD "" ≠ row.witnessKind.getD "" then some 0
  else
    match loadStrings row.victimsJson, loadStrings row.stressorsJson, loadMotif row.motifJson with
    | some cv, some cs, some cm =>
        some (40 / 100 * jaccard fp.victims.toFinset cv.toFinset + 20 / 100 * jaccard fp.stressors.toFinset cs.toFinset
          + 40 / 100 * jaccard fp.motif.toFinset cm.toFinset)
    | _, _, _ => none

abbrev TextTable := Dict CaseId CaseColumns

/-- One stored case of the nearest-case loop. -/
def nearerColumns (fp : CaseKey) (best : Option (CaseId × CaseColumns) × ℚ) (c : CaseId × CaseColumns) :
    Option (Option (CaseId × CaseColumns) × ℚ) :=
  (columnSim fp c.2).map fun s => if best.2 < s then (some c, s) else best

def nearestColumns (cases : TextTable) (fp : CaseKey) : Option (Option (CaseId × CaseColumns) × ℚ) :=
  cases.entries.foldlM (nearerColumns fp) (none, 0)

section Promote
variable (cfg : MemoryConfig)

def routeColumns (newId : CaseId) (nearest : Option (CaseId × CaseColumns) × ℚ) : CaseTag :=
  match nearest with
  | (some best, sim) =>
      let family := best.2.familyId.getD best.1
      if cfg.tauMerge ≤ sim then ⟨best.1, family, .recurrence, roundAt 3 sim⟩
      else if cfg.tauFamily ≤ sim then ⟨newId, family, .variant, roundAt 3 sim⟩
      else ⟨newId, newId, .novel, roundAt 3 sim⟩
  | (none, sim) => ⟨newId, newId, .novel, roundAt 3 sim⟩

/-- The `UPDATE` of a recurrence: the documents stay as they are. -/
def foldColumns (ts : ℚ) (lead : Option ℚ) (row : CaseColumns) : CaseColumns :=
  let occurrences := row.occurrences + 1
  let newLead := match lead, row.typicalLeadTimeS with
    | some l, some old => some ((old * row.occurrences + l) / occurrences)
    | some l, none => some l
    | none, old => old
  { row with occurrences := occurrences, lastSeenTs := ts, typicalLeadTimeS := newLead }

def storeColumns (ts : ℚ) (lead : Option ℚ) (fp : CaseKey) (tag : CaseTag) (cases : TextTable) : TextTable :=
  match tag.register with
  | .recurrence =>
      match cases.get? tag.caseId with
      | some row => cases.set tag.caseId (foldColumns ts lead row)
      | none => cases
  | _ =>
      match cases.get? tag.caseId with
      | some _ => cases
      | none => cases.set tag.caseId (insertedColumns fp ts lead tag.family)

/-- `_promote_case` on the table; `none` when a column cannot be read. -/
def promoteColumns (sha1 : CaseKey → CaseId) (cases : TextTable) (graph : CausalGraph) (ts : ℚ) :
    Option (TextTable × Option CaseTag) :=
  match fingerprint cfg graph with
  | none => some (cases, none)
  | some fp =>
      (nearestColumns cases fp).map fun nearest =>
        let tag := routeColumns cfg (sha1 fp) nearest
        (storeColumns ts (leadTime graph) fp tag cases, some tag)

end Promote

end EdgeCausal
