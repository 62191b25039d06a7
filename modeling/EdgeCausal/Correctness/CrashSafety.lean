import EdgeCausal.Correctness.CaseLibrary
import EdgeCausal.Correctness.FailedPass
import EdgeCausal.Storage.Recovery

/-!
# `Correctness.CrashSafety` — calls that raise and processes that are killed

A call of `observe` may give up between any two of its writes, those of the baselines among them, or at a commit, and
the process may be killed between any two calls.
Every single write keeps the invariants of the memory and loses nothing (`SoundMemory`, `Extends`), so they hold of
what is durable at every moment (`crash_safe`): a memory reopened after a kill is one the engine could have been in,
and no committed row is ever lost.
-/

namespace EdgeCausal

open Lib Lib.Conn

/-! ## Growth -/

/-- Every case is still there, with its fingerprint, its family and its first sighting, and at least its count. -/
def CasesKept (cases cases' : Dict CaseId CaseRow) : Prop :=
  ∀ id row, cases.get? id = some row → ∃ row', cases'.get? id = some row' ∧ row'.key = row.key ∧
    row'.familyId = row.familyId ∧ row'.firstSeenTs = row.firstSeenTs ∧ row.occurrences ≤ row'.occurrences

theorem CasesKept.refl (cases : Dict CaseId CaseRow) : CasesKept cases cases :=
  fun _ row h => ⟨row, h, rfl, rfl, rfl, le_rfl⟩

theorem CasesKept.trans {c c' c'' : Dict CaseId CaseRow} (h : CasesKept c c') (h' : CasesKept c' c'') :
    CasesKept c c'' := by
  intro id row hrow
  obtain ⟨row', hrow', hkey, hfam, hfirst, hocc⟩ := h id row hrow
  obtain ⟨row'', hrow'', hkey', hfam', hfirst', hocc'⟩ := h' id row' hrow'
  exact ⟨row'', hrow'', hkey'.trans hkey, hfam'.trans hfam, hfirst'.trans hfirst, hocc.trans hocc'⟩

/-- Every baseline is still there, learned from at least as many vectors. -/
def BaselinesKept (rows rows' : Dict (Workload × Signal) Baseline) : Prop :=
  ∀ k b, rows.get? k = some b → ∃ b', rows'.get? k = some b' ∧ b.n ≤ b'.n

theorem BaselinesKept.refl (rows : Dict (Workload × Signal) Baseline) : BaselinesKept rows rows :=
  fun _ b h => ⟨b, h, le_rfl⟩

theorem BaselinesKept.trans {r r' r'' : Dict (Workload × Signal) Baseline} (h : BaselinesKept r r')
    (h' : BaselinesKept r' r'') : BaselinesKept r r'' := by
  intro k b hb
  obtain ⟨b', hb', hn⟩ := h k b hb
  obtain ⟨b'', hb'', hn'⟩ := h' k b' hb'
  exact ⟨b'', hb'', hn.trans hn'⟩

/-- The memory has grown: rows are kept, the archive is continued. -/
structure Memory.Extends (m m' : Memory) : Prop where
  edges : Grows m.edgeMemory m'.edgeMemory
  cases : CasesKept m.cases m'.cases
  baselines : BaselinesKept m.baselines m'.baselines
  observations : m.caseObservations <+: m'.caseObservations
  snapshots : m.graphSnapshots <+: m'.graphSnapshots

theorem Memory.Extends.refl (m : Memory) : m.Extends m :=
  ⟨Grows.refl _, CasesKept.refl _, BaselinesKept.refl _, List.prefix_refl _, List.prefix_refl _⟩

theorem Memory.Extends.trans {m m' m'' : Memory} (h : m.Extends m') (h' : m'.Extends m'') : m.Extends m'' :=
  ⟨h.edges.trans h'.edges, h.cases.trans h'.cases, h.baselines.trans h'.baselines,
    h.observations.trans h'.observations, h.snapshots.trans h'.snapshots⟩

/-! ## Soundness -/

/-- Every row of the edge memory is in range. -/
def RowsSound (cfg : MemoryConfig) (rows : Dict EdgeKey EdgeRow) : Prop :=
  ∀ k row, rows.get? k = some row → SeededInv cfg row

/-- What every memory satisfies after any number of writes. -/
structure SoundMemory (cfg : MemoryConfig) (m : Memory) : Prop where
  rows : RowsSound cfg m.edgeMemory
  library : LibraryInv cfg m.cases
  stored : ∀ o ∈ m.caseObservations, o.caseId ∈ m.cases.keys

variable {cfg : MemoryConfig} {sha1 : CaseKey → CaseId} {m m' : Memory} {rows : Dict EdgeKey EdgeRow} {ts : ℚ}

theorem soundMemory_empty (cfg : MemoryConfig) : SoundMemory cfg Memory.empty :=
  ⟨fun _ _ h => absurd h (by simp [Memory.empty]), libraryInv_empty, fun _ h => absurd h (by simp [Memory.empty])⟩

/-- A row in range stays so when it is seeded. -/
theorem seedRow_sound (hcfg : cfg.Bounded) {row : Option EdgeRow} (h : ∀ r, row = some r → SeededInv cfg r) :
    SeededInv cfg (seedRow cfg ts row) := by
  cases row with
  | none =>
      exact ⟨hcfg.prior_nonneg, le_max_left _ _, hcfg.prior_nonneg, hcfg.prior_le.trans hcfg.alpha_le, by
        simp [seedRow]⟩
  | some old =>
      have hold := h old rfl
      by_cases hlt : old.baseConf < cfg.prior
      · rw [seedRow, if_pos hlt]
        exact ⟨hcfg.prior_nonneg, le_max_left _ _, hold.conf_nonneg, hold.conf_le, hold.hide_le⟩
      · rw [seedRow, if_neg hlt]
        exact hold

/-- Writing one row in range. -/
theorem RowsSound.write {key : EdgeKey} {new : EdgeRow} {rows' : Dict EdgeKey EdgeRow} (h : RowsSound cfg rows)
    (hget : ∀ k, rows'.get? k = if k = key then some new else rows.get? k) (hnew : SeededInv cfg new) :
    RowsSound cfg rows' := by
  intro k row hrow
  rw [hget] at hrow
  split at hrow
  · exact Option.some.inj hrow ▸ hnew
  · exact h k row hrow

theorem RowsSound.seedPair (hcfg : cfg.Bounded) (h : RowsSound cfg rows) (present : List Workload)
    (pair : Pod × Pod) : RowsSound cfg (EdgeCausal.seedPair cfg present ts rows pair) := by
  unfold EdgeCausal.seedPair
  cases seedKey cfg present pair with
  | none => exact h
  | some key => exact h.write (Dict.get?_set rows key · _) (seedRow_sound hcfg (h key))

theorem RowsSound.confirmEdge (hcfg : cfg.Bounded) (h : RowsSound cfg rows) (e : Edge) :
    RowsSound cfg (EdgeCausal.confirmEdge cfg ts rows e) :=
  h.write (Dict.get?_reinsert rows (edgeKey cfg e) · _) (confirmRow_inv hcfg (h (edgeKey cfg e))).seeded

theorem RowsSound.foldl {α : Type} {f : Dict EdgeKey EdgeRow → α → Dict EdgeKey EdgeRow} (l : List α)
    (hf : ∀ rows, ∀ a ∈ l, RowsSound cfg rows → RowsSound cfg (f rows a)) (h : RowsSound cfg rows) :
    RowsSound cfg (l.foldl f rows) :=
  List.foldlRecOn (motive := RowsSound cfg) l f h fun rows hrows a ha => hf rows a ha hrows

/-! ## The writes of a call -/

section Writes
variable {c : ObserveCall}

/-- The rows after the first `k` writes are in range. -/
theorem edgesAfter_sound (hcfg : cfg.Bounded) (k : ℕ) (h : RowsSound cfg rows) :
    RowsSound cfg (edgesAfter cfg c k rows) := by
  have hseed : ∀ l : List (Pod × Pod), RowsSound cfg (l.foldl (seedPair cfg c.present c.ts) rows) :=
    fun l => h.foldl l fun _ pair _ hr => hr.seedPair hcfg c.present pair
  have hconfirm : ∀ (l : List Edge) rows, RowsSound cfg rows →
      RowsSound cfg (l.foldl (confirmEdge cfg c.ts) rows) :=
    fun l _ hrows => hrows.foldl l fun _ e _ hr => hr.confirmEdge hcfg e
  have hread : RowsSound cfg (confirmedRows cfg c rows) := hconfirm _ _ (hseed _)
  unfold edgesAfter Dict.setAll
  refine (hconfirm _ _ (hseed _)).foldl _ ?_
  intro rows' kr hkr hrows'
  have hmem : kr ∈ (confirmedRows cfg c rows).entries :=
    (staleRows_sublist _ _ _).subset (List.mem_of_mem_take hkr)
  exact hrows'.write (Dict.get?_set rows' kr.1 · _)
    (decayRow_inv hcfg (hread kr.1 kr.2 (Dict.get?_eq_some_iff.mpr hmem))).seeded

/-- What a write of the case library, the observations or the snapshots does. -/
structure ArchiveStep (cfg : MemoryConfig) (m m' : Memory) : Prop where
  library : LibraryInv cfg m.cases → LibraryInv cfg m'.cases
  stored : (∀ o ∈ m.caseObservations, o.caseId ∈ m.cases.keys) →
    ∀ o ∈ m'.caseObservations, o.caseId ∈ m'.cases.keys
  cases : CasesKept m.cases m'.cases
  baselines : m'.baselines = m.baselines
  observations : m.caseObservations <+: m'.caseObservations
  snapshots : m.graphSnapshots <+: m'.graphSnapshots

theorem ArchiveStep.refl (m : Memory) : ArchiveStep cfg m m :=
  ⟨id, id, CasesKept.refl _, rfl, List.prefix_refl _, List.prefix_refl _⟩

theorem ArchiveStep.trans {m'' : Memory} (h : ArchiveStep cfg m m') (h' : ArchiveStep cfg m' m'') :
    ArchiveStep cfg m m'' :=
  ⟨h'.library ∘ h.library, h'.stored ∘ h.stored, h.cases.trans h'.cases, h'.baselines.trans h.baselines,
    h.observations.trans h'.observations, h.snapshots.trans h'.snapshots⟩

/-- A write of the edge memory does not touch the archive. -/
theorem ArchiveStep.onEdges (rows : Dict EdgeKey EdgeRow) : ArchiveStep cfg m { m with edgeMemory := rows } :=
  ⟨id, id, CasesKept.refl _, rfl, List.prefix_refl _, List.prefix_refl _⟩

theorem ArchiveStep.snapshots_take (graph : CausalGraph) (j : ℕ) (m : Memory) :
    ArchiveStep cfg m (runStatements ((snapshotStatements graph ts).take j) m) := by
  refine List.foldlRecOn (motive := ArchiveStep cfg m) _ _ (.refl m) ?_
  intro m' hm' stmt hstmt
  have hmem := List.mem_of_mem_take hstmt
  unfold snapshotStatements at hmem
  split at hmem
  · exact absurd hmem List.not_mem_nil
  · obtain rfl := List.mem_singleton.mp hmem
    exact hm'.trans ⟨id, id, CasesKept.refl _, rfl, List.prefix_refl _, List.prefix_append _ _⟩

/-- Folding or inserting a case loses none. -/
theorem storeCase_kept {lead : Option ℚ} {fp : CaseKey} {tag : CaseTag} {cases : Dict CaseId CaseRow} :
    CasesKept cases (storeCase ts lead fp tag cases) := by
  have hset : ∀ id (new : CaseRow), (∀ row, cases.get? id = some row → new.key = row.key ∧
      new.familyId = row.familyId ∧ new.firstSeenTs = row.firstSeenTs ∧ row.occurrences ≤ new.occurrences) →
      CasesKept cases (cases.set id new) := by
    intro id new hnew id' row hrow
    rw [Dict.get?_set]
    by_cases hid : id' = id
    · subst hid
      exact ⟨new, if_pos rfl, hnew row hrow⟩
    · exact ⟨row, by rw [if_neg hid]; exact hrow, rfl, rfl, rfl, le_rfl⟩
  unfold storeCase
  split
  · split
    · rename_i row hrow
      refine hset _ _ ?_
      intro row' hrow'
      obtain rfl := Option.some.inj (hrow.symm.trans hrow')
      exact ⟨rfl, rfl, rfl, Nat.le_succ row.occurrences⟩
    · exact CasesKept.refl _
  · split
    · exact CasesKept.refl _
    · rename_i hfree
      refine hset _ _ ?_
      intro row hrow
      exact absurd (hfree.symm.trans hrow) (by simp)

/-- A case is in the table once it is told. -/
theorem mem_keys_storeCase {newId : CaseId} {lead : Option ℚ} {fp : CaseKey} {cases : Dict CaseId CaseRow} :
    (routeCase cfg newId (nearestCase cases fp)).caseId
      ∈ (storeCase ts lead fp (routeCase cfg newId (nearestCase cases fp)) cases).keys := by
  obtain ⟨hstored, -, -⟩ := nearestCase_spec cases fp
  have hfound : (routeCase cfg newId (nearestCase cases fp)).register = .recurrence →
      ∃ row, cases.get? (routeCase cfg newId (nearestCase cases fp)).caseId = some row := by
    intro hreg
    rcases hnear : nearestCase cases fp with ⟨_ | ⟨best, row⟩, sim⟩
    · rw [hnear] at hreg
      exact absurd hreg (by simp [routeCase])
    · rw [hnear] at hreg hstored
      unfold routeCase at hreg ⊢
      dsimp only at hreg ⊢
      split at hreg
      · rename_i hmerge
        rw [if_pos hmerge]
        exact ⟨row, Dict.get?_eq_some_iff.mpr (hstored (best, row) rfl)⟩
      · split at hreg <;> exact absurd hreg (by simp)
  rw [Dict.mem_keys_iff_get?]
  generalize routeCase cfg newId (nearestCase cases fp) = tag at hfound ⊢
  unfold storeCase
  split
  · rename_i hreg
    obtain ⟨row, hrow⟩ := hfound hreg
    rw [hrow]
    exact ⟨_, by rw [Dict.get?_set, if_pos rfl]⟩
  · split
    · rename_i row hrow
      exact ⟨row, hrow⟩
    · exact ⟨_, by rw [Dict.get?_set, if_pos rfl]⟩

/-- The case first, then its observation, then the snapshot: after any number of these writes the archive is sound
    and has only grown. -/
theorem ArchiveStep.promotes_take (h0 : 0 < cfg.tauFamily) (h1 : cfg.tauFamily ≤ cfg.tauMerge)
    (hcases : m'.cases = m.cases) (graph : CausalGraph) (j : ℕ) :
    ArchiveStep cfg m' (runStatements
      ((promoteStatements cfg sha1 m graph ts ++ snapshotStatements graph ts).take j) m') := by
  unfold promoteStatements
  cases fingerprint cfg graph with
  | none => exact .snapshots_take graph j m'
  | some fp =>
      dsimp only
      rw [← hcases]
      set tag := routeCase cfg (sha1 fp) (nearestCase m'.cases fp) with htag
      have hcase : ArchiveStep cfg m' { m' with cases := storeCase ts (leadTime graph) fp tag m'.cases } := by
        refine ⟨?_, ?_, storeCase_kept, rfl, List.prefix_refl _, List.prefix_refl _⟩
        · exact fun hlib => ⟨hlib.separated.step caseSim_comm h1 (storeCase_refines h0 (sha1 fp) ts (leadTime graph)),
            storeCase_familiesNamed hlib.named⟩
        · intro hstored o ho
          obtain ⟨row, hrow⟩ := Dict.mem_keys_iff_get?.mp (hstored o ho)
          obtain ⟨row', hrow', -⟩ := storeCase_kept _ row hrow
          exact Dict.mem_keys_iff_get?.mpr ⟨row', hrow'⟩
      match j with
      | 0 => exact .refl m'
      | 1 => exact hcase
      | j + 2 =>
          refine (hcase.trans ?_).trans (.snapshots_take graph j _)
          refine ⟨id, ?_, CasesKept.refl _, rfl, List.prefix_append _ _, List.prefix_refl _⟩
          intro hstored o ho
          rcases List.mem_append.mp ho with ho | ho
          · exact hstored o ho
          · obtain rfl := List.mem_singleton.mp ho
            exact mem_keys_storeCase

/-- **Every prefix of the writes of a call** keeps the memory sound and lets it grow. -/
theorem take_statements_sound (sha1 : CaseKey → CaseId) (hcfg : cfg.Bounded) (h0 : 0 < cfg.tauFamily)
    (h1 : cfg.tauFamily ≤ cfg.tauMerge) (h : SoundMemory cfg m) (c : ObserveCall) (k : ℕ) :
    SoundMemory cfg (runStatements ((c.statements cfg sha1 m).take k) m) ∧
      m.Extends (runStatements ((c.statements cfg sha1 m).take k) m) := by
  have hone : ∀ f : Dict EdgeKey EdgeRow → Dict EdgeKey EdgeRow, OnEdgeMemory (onEdges f) := fun _ _ => rfl
  have harchive : ArchiveStep cfg m (runStatements ((c.statements cfg sha1 m).take k) m) := by
    obtain ⟨front, hfront, hsplit⟩ : ∃ front : List Statement, (∀ stmt ∈ front, OnEdgeMemory stmt) ∧
        c.statements cfg sha1 m
          = front ++ (promoteStatements cfg sha1 m c.graph c.ts ++ snapshotStatements c.graph c.ts) := by
      refine ⟨_, ?_, List.append_assoc _ _ _⟩
      intro stmt hstmt
      simp only [List.mem_append] at hstmt
      rcases hstmt with (hstmt | hstmt) | hstmt
      · obtain ⟨pair, -, rfl⟩ := List.mem_map.mp hstmt
        exact hone _
      · obtain ⟨e, -, rfl⟩ := List.mem_map.mp hstmt
        exact hone _
      · obtain ⟨kr, -, rfl⟩ := List.mem_map.mp hstmt
        exact hone _
    rw [hsplit, List.take_append, runStatements_append,
      runStatements_onEdgeMemory (fun stmt hstmt => hfront stmt (List.mem_of_mem_take hstmt)) m]
    exact (ArchiveStep.onEdges _).trans (.promotes_take h0 h1 (by rfl) c.graph _)
  refine ⟨⟨?_, harchive.library h.library, harchive.stored h.stored⟩,
    ⟨?_, harchive.cases, ?_, harchive.observations, harchive.snapshots⟩⟩
  · rw [edgeMemory_take]
    exact edgesAfter_sound hcfg k h.rows
  · rw [edgeMemory_take]
    have hseed : Grows m.edgeMemory
        (((seedPairs c.witness).take k).foldl (seedPair cfg c.present c.ts) m.edgeMemory) :=
      foldl_grows (fun r pair => seedPair_grows c.present c.ts r pair) _ _
    exact (hseed.trans (foldl_grows (fun r e => confirmEdge_grows c.ts r e) _ _)).trans
      (edgesAfter_grows cfg c k m.edgeMemory)
  · rw [harchive.baselines]
    exact BaselinesKept.refl _

/-- Learning vectors into the baselines keeps the memory sound and lets it grow. -/
theorem learned_sound (h : SoundMemory cfg m) (vectors : List (Pod × Series)) (ts : ℚ) :
    SoundMemory cfg { m with baselines := vectors.foldl (updateBaseline cfg ts) m.baselines } ∧
      m.Extends { m with baselines := vectors.foldl (updateBaseline cfg ts) m.baselines } := by
  refine ⟨⟨h.rows, h.library, h.stored⟩, ⟨Grows.refl _, CasesKept.refl _, ?_, List.prefix_refl _,
    List.prefix_refl _⟩⟩
  refine List.foldlRecOn (motive := BaselinesKept m.baselines) _ _ (BaselinesKept.refl _) ?_
  intro rows hrows pv _
  refine hrows.trans ?_
  unfold updateBaseline
  split
  · exact BaselinesKept.refl _
  · have hlearn : ∀ b : Baseline, b.n ≤ (learnBaseline cfg ts pv.2 b).n := by
      intro b
      unfold learnBaseline
      split
      · exact le_rfl
      · exact Nat.le_succ b.n
    intro k b hb
    dsimp only
    by_cases hk : k = (stableWorkload pv.1, cfg.signal)
    · subst hk
      rw [hb]
      exact ⟨_, by rw [Dict.get?_set, if_pos rfl], hlearn b⟩
    · refine ⟨b, ?_, le_rfl⟩
      split <;> rw [Dict.get?_set, if_neg hk, hb]

end Writes

/-! ## Runs -/

/-- What befalls a connection: a call, which may raise, or the end of its process. -/
inductive ServiceEvent where
  | call (a : Attempt)
  | killed

def serviceEvent (cfg : MemoryConfig) (sha1 : CaseKey → CaseId) (conn : Conn Memory) : ServiceEvent → Conn Memory
  | .call a => attemptOn cfg sha1 conn a
  | .killed => conn.kill

/-- The connection after the first `i` events, from a database that holds `m`. -/
def connectionAt (cfg : MemoryConfig) (sha1 : CaseKey → CaseId) (m : Memory) (events : List ServiceEvent) (i : ℕ) :
    Conn Memory :=
  stateAt (serviceEvent cfg sha1) (clean m) events i

/-- **Step.** -/
theorem serviceEvent_safe (sha1 : CaseKey → CaseId) (hcfg : cfg.Bounded) (h0 : 0 < cfg.tauFamily)
    (h1 : cfg.tauFamily ≤ cfg.tauMerge) {conn : Conn Memory} (e : ServiceEvent)
    (h : Safe (SoundMemory cfg) Memory.Extends conn) :
    Safe (SoundMemory cfg) Memory.Extends (serviceEvent cfg sha1 conn e) ∧
      conn.durable.Extends (serviceEvent cfg sha1 conn e).durable := by
  cases e with
  | killed => exact ⟨h.kill Memory.Extends.refl, .refl _⟩
  | call a =>
      obtain ⟨c, raises⟩ := a
      obtain ⟨hsound, hgrown⟩ : SoundMemory cfg (updateBaselines cfg conn.view c.vectors c.ts) ∧
          conn.view.Extends (updateBaselines cfg conn.view c.vectors c.ts) :=
        learned_sound h.view c.vectors.entries c.ts
      have hbase : Safe (SoundMemory cfg) Memory.Extends (commitBaselines cfg conn c.vectors c.ts) :=
        .clean Memory.Extends.refl hsound
      have hbegun : conn.durable.Extends (commitBaselines cfg conn c.vectors c.ts).durable := h.grown.trans hgrown
      have hwrite : ∀ k, Safe (SoundMemory cfg) Memory.Extends
          (observeRaising cfg sha1 k conn c.graph c.vectors c.witness c.ts) := by
        intro k
        obtain ⟨hI, hR⟩ := take_statements_sound sha1 hcfg h0 h1 hsound c k
        unfold observeRaising
        dsimp only
        exact Safe.execAll (fun hst htu => hst.trans htu) hbase hI hR
      have hall : Safe (SoundMemory cfg) Memory.Extends (attemptOn cfg sha1 conn ⟨c, none⟩) := by
        have hwhole := hwrite (c.statements cfg sha1 (updateBaselines cfg conn.view c.vectors c.ts)).length
        unfold observeRaising at hwhole
        dsimp only at hwhole
        rw [show observeStatements cfg sha1 (commitBaselines cfg conn c.vectors c.ts).view c.graph c.vectors
          c.witness c.ts = c.statements cfg sha1 (updateBaselines cfg conn.view c.vectors c.ts) from rfl,
          List.take_length] at hwhole
        exact hwhole.commit Memory.Extends.refl
      have hdone : conn.durable.Extends (attemptOn cfg sha1 conn ⟨c, none⟩).durable := by
        obtain ⟨-, hR⟩ := take_statements_sound sha1 hcfg h0 h1 hsound c
          (c.statements cfg sha1 (updateBaselines cfg conn.view c.vectors c.ts)).length
        rw [List.take_length, runStatements_observe] at hR
        rw [observeOn_clean]
        exact hbegun.trans hR
      cases raises with
      | none => exact ⟨hall, hdone⟩
      | some p =>
          cases p with
          | rendering => exact ⟨hall, hdone⟩
          | learning k =>
              -- the baselines learned so far are pending, on top of what was
              obtain ⟨hI, hR⟩ := learned_sound h.view (c.vectors.entries.take k) c.ts
              rw [← runStatements_baselines] at hI hR
              refine ⟨Safe.execAll (fun hst htu => hst.trans htu) h hI hR, ?_⟩
              show conn.durable.Extends (conn.execAll _).durable
              rw [execAll_durable]
              exact .refl _
          | writing k =>
              refine ⟨hwrite k, ?_⟩
              show conn.durable.Extends ((commitBaselines cfg conn c.vectors c.ts).execAll _).durable
              rw [execAll_durable]
              exact hbegun

/-- **Crash safety.** From an empty database, over any sequence of calls, each raising anywhere or not at all, among its
    baselines or after them, and of kills of the process: at every moment what is durable, and what the connection sees,
    is a sound memory, and what was durable at an earlier moment is still there. -/
theorem crash_safe (cfg : MemoryConfig) (hcfg : cfg.Bounded) (h0 : 0 < cfg.tauFamily)
    (h1 : cfg.tauFamily ≤ cfg.tauMerge) (sha1 : CaseKey → CaseId) (events : List ServiceEvent) (i j : ℕ)
    (hij : i ≤ j) :
    SoundMemory cfg (connectionAt cfg sha1 .empty events j).durable ∧
    SoundMemory cfg (connectionAt cfg sha1 .empty events j).view ∧
    (connectionAt cfg sha1 .empty events j).durable.Extends (connectionAt cfg sha1 .empty events j).view ∧
    (connectionAt cfg sha1 .empty events i).durable.Extends (connectionAt cfg sha1 .empty events j).durable := by
  have hrun := Safe.history Memory.Extends.refl Memory.Extends.trans events
    (fun conn e _ hconn => serviceEvent_safe sha1 hcfg h0 h1 e hconn)
    (.clean Memory.Extends.refl (soundMemory_empty cfg)) hij
  exact ⟨hrun.1.durable, hrun.1.view, hrun.1.grown, hrun.2⟩

/-- The storm on rings long enough to be learned. -/
def learnedCall (ts : ℚ) : ObserveCall :=
  { stormCall [stormEdge] ts with vectors := stormVectors.mapVals fun _ _ => List.replicate 12 (1 / 10) }

/-- A pass, one that raises on committing its baselines, one whose second write raises, a kill, and a pass of the next
    process. -/
def rockyEvents : List ServiceEvent :=
  [.call ⟨stormCall [] 5, none⟩, .call ⟨learnedCall 8, some (.learning 2)⟩, .call ⟨learnedCall 10, some (.writing 2)⟩,
    .killed, .call ⟨learnedCall 15, none⟩]

theorem crash_safe_rocky :
    SoundMemory MemoryConfig.default (connectionAt MemoryConfig.default (fun _ => 0) .empty rockyEvents 5).durable ∧
    SoundMemory MemoryConfig.default (connectionAt MemoryConfig.default (fun _ => 0) .empty rockyEvents 5).view ∧
    (connectionAt MemoryConfig.default (fun _ => 0) .empty rockyEvents 5).durable.Extends
      (connectionAt MemoryConfig.default (fun _ => 0) .empty rockyEvents 5).view ∧
    (connectionAt MemoryConfig.default (fun _ => 0) .empty rockyEvents 1).durable.Extends
      (connectionAt MemoryConfig.default (fun _ => 0) .empty rockyEvents 5).durable :=
  crash_safe MemoryConfig.default default_bounded (by norm_num [MemoryConfig.default])
    (by norm_num [MemoryConfig.default]) (fun _ => 0) rockyEvents 1 5 (by decide)

end EdgeCausal
