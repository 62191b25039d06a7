import EdgeCausal.Correctness.Recognition
import EdgeCausal.Engine.Columns

/-!
# `Correctness.StoredCases` — what is stored is read back

The documents in the columns of a case stand for the lists they were written from (`columns_read_back`), and the text
an id is hashed from stands for one fingerprint only. So promoting from the stored text is promoting from the
fingerprints themselves: over any run the table holds the texts of the library, every column can be read, and every
pass is recognised the same (`table_refines`).
-/

namespace EdgeCausal

open Lib

/-! ## Documents -/

theorem reads_strings (l : List String) : Json.Reads (jsonStrings l) (.array (l.map .string)) := by
  refine .array ?_
  rw [List.forall₂_map_left_iff, List.forall₂_map_right_iff, List.forall₂_same]
  exact fun s _ => Json.reads_string s

/-- The document of a motif edge. -/
def pairValue (m : Workload × Workload) : Json.Value := .object [("dst", .string m.2), ("src", .string m.1)]

theorem reads_pair (m : Workload × Workload) :
    Json.Reads (Json.object [("dst", Json.string m.2), ("src", Json.string m.1)]) (pairValue m) :=
  .object (.cons ⟨rfl, Json.reads_string _⟩ (.cons ⟨rfl, Json.reads_string _⟩ .nil))

theorem reads_motif (motif : List (Workload × Workload)) :
    Json.Reads (jsonMotif motif) (.array (motif.map pairValue)) := by
  refine .array ?_
  rw [List.forall₂_map_left_iff, List.forall₂_map_right_iff, List.forall₂_same]
  exact fun m _ => reads_pair m

/-- The document of a witness kind. -/
def kindValue (kind : Option Evidence) : Json.Value :=
  match kind with
  | some kind => .string kind.token
  | none => .null

/-- The document an id is hashed from. -/
def keyValue (fp : CaseKey) : Json.Value :=
  .object [("motif", .array (fp.motif.map pairValue)), ("signal", .string fp.signal),
    ("stressors", .array (fp.stressors.map .string)), ("victims", .array (fp.victims.map .string)),
    ("witness_kind", kindValue fp.witnessKind)]

theorem reads_key (fp : CaseKey) : Json.Reads (keyJson fp) (keyValue fp) := by
  have hkind : Json.Reads (match fp.witnessKind with
      | some kind => Json.string kind.token
      | none => ['n', 'u', 'l', 'l']) (kindValue fp.witnessKind) := by
    unfold kindValue
    cases fp.witnessKind with
    | none => exact Json.reads_null
    | some kind => exact Json.reads_string _
  exact .object (.cons ⟨rfl, reads_motif _⟩ (.cons ⟨rfl, Json.reads_string _⟩
    (.cons ⟨rfl, reads_strings _⟩ (.cons ⟨rfl, reads_strings _⟩ (.cons ⟨rfl, hkind⟩ .nil)))))

theorem token_injective : Function.Injective Evidence.token := by
  intro a b h
  cases a <;> cases b <;> first | rfl | exact absurd h (by decide)

theorem kindValue_injective : Function.Injective kindValue := by
  intro a b h
  cases a with
  | none =>
      cases b with
      | none => rfl
      | some b => exact absurd h (by simp [kindValue])
  | some a =>
      cases b with
      | none => exact absurd h (by simp [kindValue])
      | some b => rw [token_injective (Json.Value.string.inj h)]

theorem pairValue_injective : Function.Injective pairValue := by
  rintro ⟨src, dst⟩ ⟨src', dst'⟩ h
  simp only [pairValue, Json.Value.object.injEq, List.cons.injEq, Prod.mk.injEq, Json.Value.string.injEq] at h
  rw [h.1.2, h.2.1.2]

theorem keyValue_injective : Function.Injective keyValue := by
  rintro ⟨stressors, victims, signal, kind, motif⟩ ⟨stressors', victims', signal', kind', motif'⟩ h
  simp only [keyValue, Json.Value.object.injEq, List.cons.injEq, Prod.mk.injEq, Json.Value.string.injEq,
    Json.Value.array.injEq, true_and, and_true] at h
  obtain ⟨hmotif, rfl, hstressors, hvictims, hkind⟩ := h
  have hstring : Function.Injective Json.Value.string := fun _ _ => Json.Value.string.inj
  rw [pairValue_injective.list_map hmotif, hstring.list_map hstressors, hstring.list_map hvictims,
    kindValue_injective hkind]

/-- Two fingerprints are hashed from one text only if they are the same. -/
theorem keyJson_injective : Function.Injective keyJson := by
  intro fp fp' h
  have hread := reads_key fp'
  rw [← h] at hread
  exact keyValue_injective ((reads_key fp).unique hread)

/-! ## Columns -/

/-- A document in a column is loaded, whatever the default. -/
theorem loadJson_of_reads {text : List Char} {v : Json.Value} (h : Json.Reads text v) (default : Json.Value) :
    loadJson (some text) default = v := by
  unfold loadJson
  dsimp only
  rw [if_neg (List.ne_nil_of_length_pos h.length_pos), h.loads]
  rfl

/-- The items of a column are those it was written from. -/
theorem loadItems_of_reads {α : Type} {item : Json.Value → Option α} {doc : α → Json.Value} {column : List Char}
    {l : List α} (h : Json.Reads column (.array (l.map doc))) (hitem : ∀ a, item (doc a) = some a) :
    loadItems item column = some l := by
  have hitems : ∀ l : List α, (l.map doc).mapM item = some l := by
    intro l
    induction l with
    | nil => rfl
    | cons a l ih =>
        rw [List.map_cons, List.mapM_cons, hitem, ih]
        rfl
  unfold loadItems
  rw [loadJson_of_reads h]
  exact hitems l

theorem loadStrings_jsonStrings (l : List String) : loadStrings (jsonStrings l) = some l :=
  loadItems_of_reads (reads_strings l) fun _ => rfl

theorem loadMotif_jsonMotif (motif : List (Workload × Workload)) : loadMotif (jsonMotif motif) = some motif := by
  refine loadItems_of_reads (reads_motif motif) ?_
  rintro ⟨src, dst⟩
  rfl

/-- The columns of a row of the library. -/
def CaseRow.columns (row : CaseRow) : CaseColumns where
  keyJson := keyJson row.key
  stressorsJson := jsonStrings row.key.stressors
  victimsJson := jsonStrings row.key.victims
  signal := row.key.signal
  witnessKind := row.key.witnessKind.map Evidence.token
  motifJson := jsonMotif row.key.motif
  occurrences := row.occurrences
  firstSeenTs := row.firstSeenTs
  lastSeenTs := row.lastSeenTs
  typicalLeadTimeS := row.typicalLeadTimeS
  familyId := row.familyId

/-- No witness kind is stored as the empty text that stands for none. -/
theorem kind_text_inj {a b : Option Evidence} :
    (a.map Evidence.token).getD "" = (b.map Evidence.token).getD "" ↔ a = b := by
  have hne : ∀ e : Evidence, e.token ≠ "" := by
    intro e
    cases e <;> decide
  constructor
  · intro h
    cases a with
    | none =>
        cases b with
        | none => rfl
        | some b => exact absurd h.symm (hne b)
    | some a =>
        cases b with
        | none => exact absurd h (hne a)
        | some b => rw [token_injective h]
  · rintro rfl
    rfl

/-- **A case compares from its columns as from its fingerprint.** -/
theorem columnSim_columns (fp : CaseKey) (row : CaseRow) : columnSim fp row.columns = some (caseSim fp row.key) := by
  unfold columnSim caseSim
  simp only [CaseRow.columns, loadStrings_jsonStrings, loadMotif_jsonMotif, ne_eq, kind_text_inj]
  split <;> rfl

/-- **Columns are read back.** Whatever the names: the lists in the columns of a case and of an edge's evidence are
    those they were written from, a stored case compares with any fingerprint as the fingerprint it was opened for
    does, and no two fingerprints have one text. -/
theorem columns_read_back :
    (∀ l, loadStrings (jsonStrings l) = some l) ∧ (∀ motif, loadMotif (jsonMotif motif) = some motif) ∧
    (∀ evidence, loadStrings (jsonEvidence evidence) = some (evidence.map Evidence.token)) ∧
    (∀ fp fp' ts lead family, columnSim fp (insertedColumns fp' ts lead family) = some (caseSim fp fp')) ∧
    ∀ fp fp', keyJson fp = keyJson fp' ↔ fp = fp' := by
  refine ⟨loadStrings_jsonStrings, loadMotif_jsonMotif, fun evidence => loadStrings_jsonStrings _, ?_, ?_⟩
  · intro fp fp' ts lead family
    exact columnSim_columns fp ⟨fp', 1, ts, ts, lead, some family⟩
  · exact fun fp fp' => keyJson_injective.eq_iff

/-! ## The table -/

/-- The table a library is stored as. -/
def tableOf (cases : Dict CaseId CaseRow) : TextTable := cases.mapVals fun _ row => row.columns

/-- A case, or none, with its columns in the place of its row. -/
def bestColumns (best : Option (CaseId × CaseRow) × ℚ) : Option (CaseId × CaseColumns) × ℚ :=
  (best.1.map fun c => (c.1, c.2.columns), best.2)

/-- **Step.** The loop over the stored cases finds what the loop over the library finds. -/
theorem foldlM_nearerColumns (fp : CaseKey) (cs : List (CaseId × CaseRow)) (best : Option (CaseId × CaseRow) × ℚ) :
    (cs.map fun c => (c.1, c.2.columns)).foldlM (nearerColumns fp) (bestColumns best)
      = some (bestColumns (cs.foldl (nearer fp) best)) := by
  induction cs generalizing best with
  | nil => rfl
  | cons c cs ih =>
      have hstep : nearerColumns fp (bestColumns best) (c.1, c.2.columns) = some (bestColumns (nearer fp best c)) := by
        unfold nearerColumns nearer
        rw [columnSim_columns]
        by_cases hlt : best.2 < caseSim fp c.2.key
        · rw [if_pos hlt]
          exact congrArg some (if_pos hlt)
        · rw [if_neg hlt]
          exact congrArg some (if_neg hlt)
      rw [List.map_cons, List.foldlM_cons, hstep]
      exact ih _

theorem nearestColumns_tableOf (cases : Dict CaseId CaseRow) (fp : CaseKey) :
    nearestColumns (tableOf cases) fp = some (bestColumns (nearestCase cases fp)) :=
  foldlM_nearerColumns fp cases.entries (none, 0)

section Promote
variable (cfg : MemoryConfig) (sha1 : CaseKey → CaseId)

theorem routeColumns_bestColumns (newId : CaseId) (nearest : Option (CaseId × CaseRow) × ℚ) :
    routeColumns cfg newId (bestColumns nearest) = routeCase cfg newId nearest := by
  rcases nearest with ⟨_ | best, sim⟩ <;> rfl

theorem storeColumns_tableOf (ts : ℚ) (lead : Option ℚ) (fp : CaseKey) (tag : CaseTag)
    (cases : Dict CaseId CaseRow) :
    storeColumns ts lead fp tag (tableOf cases) = tableOf (storeCase ts lead fp tag cases) := by
  have hget : (tableOf cases).get? tag.caseId = (cases.get? tag.caseId).map CaseRow.columns :=
    Dict.get?_mapVals _ _ _
  have hset : ∀ row : CaseRow, (tableOf cases).set tag.caseId row.columns = tableOf (cases.set tag.caseId row) :=
    fun row => (Dict.mapVals_set cases (fun _ row => row.columns) tag.caseId row).symm
  unfold storeColumns storeCase
  rw [hget]
  cases tag.register with
  | recurrence =>
      cases cases.get? tag.caseId with
      | none => rfl
      | some row => exact hset (foldCase ts lead row)
  | variant =>
      cases cases.get? tag.caseId with
      | none => exact hset ⟨fp, 1, ts, ts, lead, some tag.family⟩
      | some row => rfl
  | novel =>
      cases cases.get? tag.caseId with
      | none => exact hset ⟨fp, 1, ts, ts, lead, some tag.family⟩
      | some row => rfl

/-- **Step.** Promoting from the table is promoting from the library. -/
theorem promoteColumns_tableOf (m : Memory) (c : ObserveCall) :
    promoteColumns cfg sha1 (tableOf m.cases) c.graph c.ts
      = some (tableOf (observeStep cfg sha1 m c).cases, observeTag cfg sha1 m c) := by
  rw [observeStep_cases, observeTag_eq]
  unfold promoteColumns
  cases fingerprint cfg c.graph with
  | none => rfl
  | some fp =>
      dsimp only
      rw [nearestColumns_tableOf, Option.map_some, routeColumns_bestColumns, storeColumns_tableOf]
      rfl

/-- The table after some calls, and how each was recognised; `none` when a column could not be read. -/
def tableRun (cases : TextTable) : List ObserveCall → Option (TextTable × List (Option CaseTag))
  | [] => some (cases, [])
  | c :: calls =>
      match promoteColumns cfg sha1 cases c.graph c.ts with
      | none => none
      | some (cases', tag) => (tableRun cases' calls).map fun out => (out.1, tag :: out.2)

/-- How each of some calls is recognised. -/
def observeTags (m : Memory) : List ObserveCall → List (Option CaseTag)
  | [] => []
  | c :: calls => observeTag cfg sha1 m c :: observeTags (observeStep cfg sha1 m c) calls

/-- **The table refines the library.** From any library, over any run of calls: every column can be read, the table
    holds the texts of the library at the end, and every call is recognised as the library recognises it. -/
theorem table_refines (m : Memory) (calls : List ObserveCall) :
    tableRun cfg sha1 (tableOf m.cases) calls
      = some (tableOf (calls.foldl (observeStep cfg sha1) m).cases, observeTags cfg sha1 m calls) := by
  induction calls generalizing m with
  | nil => rfl
  | cons c calls ih =>
      unfold tableRun
      rw [promoteColumns_tableOf]
      dsimp only
      rw [ih]
      rfl

end Promote

end EdgeCausal
