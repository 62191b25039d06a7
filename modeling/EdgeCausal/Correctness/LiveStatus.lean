import EdgeCausal.Api.Telemetry
import EdgeCausal.Collections.Contest

/-!
# `Correctness.LiveStatus` — when dead pods show in the live status

The ring keeps the series of a pod long after the pod is gone, and neither endpoint looks at timestamps.
So a workload's row is settled by whichever of its series comes out on top in key order, dead or alive, and a
chart is drawn from whichever series of the signal comes first. `live_status_iff` says exactly when deleting
the stale series changes nothing for a workload that has a live one.
-/

namespace EdgeCausal.Api

open Lib

/-! ## The property -/

section Property
variable (signals : List Signal) (engine : Option MergedGraph) (step : ℚ) (window : Window)

/-- Value, signal and namespace of a workload in the status list. -/
def statusOf (w : Workload) (rows : List PodRow) : Option (ℚ × Signal × String) :=
  (rows.find? fun p => p.workload = w).map fun p => (p.value, p.signal, p.ns)

/-- The workload has a series, of any signal, that is not stale. -/
def HasLive (w : Workload) : Prop :=
  ∃ e ∈ window.entries, ∃ id, seriesId e.1 = some id ∧ workload id.pod = w ∧ e.2 ≠ [] ∧
    stale step window e.2 = false

/-- The workload has a series of this signal that is not stale. -/
def HasLiveFor (w : Workload) (sig : Signal) : Prop :=
  ∃ e ∈ window.entries, serves w sig e = true ∧ stale step window e.2 = false

/-- Deleting the stale series leaves the row of every workload with a live one. -/
def StatusFromLive : Prop :=
  ∀ w, HasLive step window w →
    (pods signals (.ok (dropStale step window)) engine).map (statusOf w)
      = (pods signals (.ok window) engine).map (statusOf w)

/-- Deleting the stale series leaves the points of every signal for which the workload has a live one. -/
def PointsFromLive : Prop :=
  ∀ w sig, HasLiveFor step window w sig →
    (signal (.ok (dropStale step window)) w sig).map Points.points
      = (signal (.ok window) w sig).map Points.points

end Property

/-! ## The condition -/

/-- The monitored readings of a workload, in key order. -/
def readingsOf (signals : List Signal) (window : Window) (w : Workload) : List Reading :=
  (window.entries.filterMap (reading signals)).filter fun rd => rd.workload = w

/-- The level a reading is shown with: rounded, and not below the zero a row starts with. -/
def shownLevel (rd : Reading) : ℚ := max 0 (roundAt 4 rd.level)

/-- The reading that settles a row: the last, in key order, that is not negative and not below the rounded
    level of an earlier one; the first reading when all are negative. -/
def Settles (rs : List Reading) (rd : Reading) : Prop :=
  LastLeader (roundAt 4) Reading.level 0 rs rd ∨ ((∀ q ∈ rs, q.level < 0) ∧ rs.head? = some rd)

/-- The live readings settle a row as all readings do: the first of each have one namespace (or there are
    none), and the two that settle it are of one signal and shown with one level. -/
structure SettledAlike (all live : List Reading) : Prop where
  ns : live.head?.map Reading.ns = all.head?.map Reading.ns
  settled : ∀ rd, Settles all rd → ∃ rd', Settles live rd' ∧ rd'.signal = rd.signal ∧
    shownLevel rd' = shownLevel rd

/-- The first series of a workload's signal, in key order, is not stale. -/
def FirstIsLive (step : ℚ) (window : Window) (w : Workload) (sig : Signal) : Prop :=
  ∀ e, window.entries.find? (serves w sig) = some e → stale step window e.2 = false

/-! ## The row of a workload -/

section Rows
variable (flagged : List Workload) {rs : List Reading}

theorem roundAt_roundAt (k : ℕ) (x : ℚ) : roundAt k (roundAt k x) = roundAt k x :=
  roundAt_of_grid k (roundHalfEven (x * 10 ^ k))

/-- A non-empty list of readings has one that settles the row. -/
theorem exists_settles (hne : rs ≠ []) : ∃ rd, Settles rs rd := by
  have hlead : (∃ rd, LastLeader (roundAt 4) Reading.level 0 rs rd) ∨ ∀ q ∈ rs, q.level < 0 :=
    exists_lastLeader (fun _ _ h => roundAt_mono 4 h) (roundAt_roundAt 4) (roundAt_zero 4) rs
  rcases hlead with ⟨rd, hrd⟩ | hneg
  · exact ⟨rd, Or.inl hrd⟩
  · obtain ⟨rd, rest, rfl⟩ := List.exists_cons_of_ne_nil hne
    exact ⟨rd, Or.inr ⟨hneg, rfl⟩⟩

/-- The row and the contest go together: the row's value is the bar, its signal the leader's. -/
theorem take_contest (rs : List Reading) (row : PodRow) (cur : ℚ × Option Reading) (sig : Signal)
    (hv : row.value = cur.1) (hs : row.signal = (cur.2.map Reading.signal).getD sig) :
    ∃ row' : PodRow, rs.foldl (fun r rd => some (PodRow.take flagged rd r)) (some row) = some row' ∧
      row'.workload = row.workload ∧ row'.ns = row.ns ∧
      row'.value = (rs.foldl (contest (roundAt 4) Reading.level) cur).1 ∧
      row'.signal = ((rs.foldl (contest (roundAt 4) Reading.level) cur).2.map Reading.signal).getD sig := by
  induction rs generalizing row cur with
  | nil => exact ⟨row, rfl, rfl, rfl, hv, hs⟩
  | cons rd rs ih =>
      rw [List.foldl_cons, List.foldl_cons]
      by_cases hle : row.value ≤ rd.level
      · have htake : PodRow.take flagged rd (some row)
            = ⟨row.workload, row.ns, rd.signal, roundAt 4 rd.level, rd.workload ∈ flagged⟩ := by
          simp [PodRow.take, hle]
        have hstep : contest (roundAt 4) Reading.level cur rd = (roundAt 4 rd.level, some rd) :=
          if_pos (hv ▸ hle)
        rw [htake, hstep]
        exact ih _ _ rfl rfl
      · have htake : PodRow.take flagged rd (some row)
            = ⟨row.workload, row.ns, row.signal, row.value, rd.workload ∈ flagged⟩ := by
          simp [PodRow.take, hle]
        have hstep : contest (roundAt 4) Reading.level cur rd = cur := if_neg (hv ▸ hle)
        rw [htake, hstep]
        exact ih _ _ hv hs

/-- **The row a list of readings ends in** is the one of the reading that settles it. -/
theorem row_of_settles {rd first : Reading} (hfirst : rs.head? = some first) (h : Settles rs rd) :
    ∃ row : PodRow, rs.foldl (fun r rd => some (PodRow.take flagged rd r)) none = some row ∧
      row.workload = first.workload ∧ row.ns = first.ns ∧ row.value = shownLevel rd ∧
          row.signal = rd.signal := by
  obtain ⟨rest, rfl⟩ : ∃ rest, rs = first :: rest := by
    cases rs with
    | nil => exact absurd hfirst (by simp)
    | cons x rest => exact ⟨rest, by rw [Option.some.inj hfirst]⟩
  obtain ⟨row, hrow, hw, hns, hval, hsig⟩ := take_contest flagged (first :: rest)
    (PodRow.fresh first) (0, none) first.signal rfl rfl
  refine ⟨row, hrow, hw, hns, ?_⟩
  unfold shownLevel
  rcases h with hlead | ⟨hneg, hhead⟩
  · have hend := foldl_contest hlead none
    have hpos : 0 ≤ roundAt 4 rd.level := by
      obtain ⟨-, -, -, h0, -⟩ := hlead
      have := roundAt_mono 4 h0
      rwa [roundAt_zero] at this
    rw [hend] at hval hsig
    rw [max_eq_right hpos]
    exact ⟨hval, hsig⟩
  · obtain rfl := Option.some.inj hhead
    have hend : (first :: rest).foldl (contest (roundAt 4) Reading.level) (0, none) = (0, none) :=
      foldl_contest_of_lt _ hneg
    have hle : roundAt 4 first.level ≤ 0 := by
      have := roundAt_mono 4 (hneg first List.mem_cons_self).le
      rwa [roundAt_zero] at this
    rw [hend] at hval hsig
    rw [max_eq_left hle]
    exact ⟨hval, hsig⟩

/-- A workload's row is its own readings applied in key order. -/
theorem get?_podRows (readings : List Reading) (w : Workload) :
    (podRows flagged readings).get? w
      = (readings.filter fun rd => rd.workload = w).foldl (fun r rd =>
          some (PodRow.take flagged rd r)) none := by
  have hstep : ∀ (out : Dict Workload PodRow) (rd : Reading) (w : Workload),
      (out.set rd.workload (PodRow.take flagged rd (out.get? rd.workload))).get? w
        = if some rd.workload = some w then some (PodRow.take flagged rd (out.get? w)) else out.get? w := by
    intro out rd w
    rw [Dict.get?_set]
    by_cases hw : w = rd.workload
    · rw [if_pos hw, if_pos (congrArg some hw.symm), hw]
    · rw [if_neg hw, if_neg fun h => hw (Option.some.inj h).symm]
  have hfold := Dict.get?_foldl_update (f := fun rd row => PodRow.take flagged rd row) hstep readings ∅ w
  unfold podRows
  rw [hfold]
  simp

theorem workload_of_row {flagged : List Workload} {readings : List Reading} {w : Workload} {row : PodRow}
    (h : (podRows flagged readings).get? w = some row) : row.workload = w := by
  rw [get?_podRows] at h
  cases hrs : readings.filter (fun rd => rd.workload = w) with
  | nil => rw [hrs] at h; exact absurd h (by simp)
  | cons first rest =>
      rw [hrs] at h
      obtain ⟨rd, hrd⟩ := exists_settles (List.cons_ne_nil first rest)
      obtain ⟨row', hrow', hw, -⟩ := row_of_settles flagged rfl hrd
      obtain rfl := Option.some.inj (h.symm.trans hrow')
      have hmem : first ∈ readings.filter fun rd => rd.workload = w := by rw [hrs]; exact List.mem_cons_self
      rw [hw]
      simpa using (List.mem_filter.mp hmem).2

/-- In a list where at most one item satisfies `P`, that item is found. -/
theorem find?_unique {α : Type} {P : α → Bool} {l : List α} {x : α} (hx : x ∈ l) (hP : P x = true)
    (huniq : ∀ y ∈ l, P y = true → y = x) : l.find? P = some x := by
  cases hf : l.find? P with
  | none => exact absurd hP (List.find?_eq_none.mp hf x hx)
  | some y => rw [huniq y (List.mem_of_find?_eq_some hf) (List.find?_some hf)]

/-- The status list shows a workload's row. -/
theorem statusOf_pods (signals : List Signal) (window : Window) (engine : Option MergedGraph) (w : Workload) :
    (pods signals (.ok window) engine).map (statusOf w)
      = .ok (((podRows (flaggedBy engine) (window.entries.filterMap (reading signals))).get? w).map
          fun p => (p.value, p.signal, p.ns)) := by
  show Except.ok _ = Except.ok _
  congr 1
  unfold statusOf
  congr 1
  set rows := podRows (flaggedBy engine) (window.entries.filterMap (reading signals)) with hrows
  have hwl : ∀ p ∈ sortOn (fun p => -p.value) rows.values, rows.get? p.workload = some p := by
    intro p hp
    obtain ⟨k, hk⟩ := Dict.mem_values_iff_get?.mp (mem_sortOn.mp hp)
    rwa [workload_of_row hk]
  cases hget : rows.get? w with
  | none =>
      rw [List.find?_eq_none]
      intro p hp hpw
      have hpw' : p.workload = w := by simpa using hpw
      have := hwl p hp
      rw [hpw', hget] at this
      exact absurd this (by simp)
  | some row =>
      apply find?_unique
      · exact mem_sortOn.mpr (Dict.mem_values_iff_get?.mpr ⟨w, hget⟩)
      · simpa using workload_of_row hget
      · intro p hp hpw
        have hpw' : p.workload = w := by simpa using hpw
        have := hwl p hp
        rw [hpw', hget] at this
        exact (Option.some.inj this).symm

theorem status_of_nil {signals : List Signal} {window : Window} {w : Workload} (engine : Option MergedGraph)
    (h : readingsOf signals window w = []) :
    (pods signals (.ok window) engine).map (statusOf w) = .ok none := by
  rw [statusOf_pods, get?_podRows]
  show Except.ok (((readingsOf signals window w).foldl _ none).map _) = _
  rw [h]
  rfl

theorem status_of_settles {signals : List Signal} {window : Window} {w : Workload} {rd first : Reading}
    (engine : Option MergedGraph) (hfirst : (readingsOf signals window w).head? = some first)
    (h : Settles (readingsOf signals window w) rd) :
    (pods signals (.ok window) engine).map (statusOf w) = .ok (some (shownLevel rd, rd.signal, first.ns)) := by
  obtain ⟨row, hrow, -, hns, hval, hsig⟩ := row_of_settles (flaggedBy engine) hfirst h
  rw [statusOf_pods, get?_podRows]
  show Except.ok (((readingsOf signals window w).foldl _ none).map _) = _
  rw [hrow, Option.map_some, hns, hval, hsig]

/-- **Two windows show a workload alike** exactly when their readings of it are settled alike. -/
theorem status_eq_iff {signals : List Signal} {window window' : Window} {w : Workload}
    (engine : Option MergedGraph) :
    (pods signals (.ok window') engine).map (statusOf w) = (pods signals (.ok window) engine).map (statusOf w)
      ↔ SettledAlike (readingsOf signals window w) (readingsOf signals window' w) := by
  cases hall : (readingsOf signals window w).head? with
  | none =>
      have hnil := List.head?_eq_none_iff.mp hall
      rw [status_of_nil engine hnil, hnil]
      cases hlive : (readingsOf signals window' w).head? with
      | none =>
          have hnil' := List.head?_eq_none_iff.mp hlive
          rw [status_of_nil engine hnil', hnil']
          refine iff_of_true rfl ⟨rfl, ?_⟩
          rintro rd (hlead | ⟨-, hhead⟩)
          · exact absurd hlead.mem List.not_mem_nil
          · exact absurd hhead (by simp)
      | some first =>
          obtain ⟨rd, hrd⟩ := exists_settles (List.ne_nil_of_mem (List.mem_of_mem_head? hlive))
          rw [status_of_settles engine hlive hrd]
          refine iff_of_false (by simp) fun h => ?_
          have hns := h.ns
          rw [hlive] at hns
          exact absurd hns (by simp)
  | some first =>
      obtain ⟨rd, hrd⟩ := exists_settles (List.ne_nil_of_mem (List.mem_of_mem_head? hall))
      rw [status_of_settles engine hall hrd]
      cases hlive : (readingsOf signals window' w).head? with
      | none =>
          rw [status_of_nil engine (List.head?_eq_none_iff.mp hlive)]
          refine iff_of_false (by simp) fun h => ?_
          have hns := h.ns
          rw [hlive, hall] at hns
          exact absurd hns (by simp)
      | some first' =>
          obtain ⟨rd', hrd'⟩ := exists_settles (List.ne_nil_of_mem (List.mem_of_mem_head? hlive))
          rw [status_of_settles engine hlive hrd']
          constructor
          · intro h
            simp only [Except.ok.injEq, Option.some.injEq, Prod.mk.injEq] at h
            refine ⟨by rw [hlive, hall]; simp [h.2.2], ?_⟩
            intro rd₁ hrd₁
            -- whichever reading settles the row, the row is the same
            have hsame := (status_of_settles engine hall hrd).symm.trans (status_of_settles engine hall hrd₁)
            simp only [Except.ok.injEq, Option.some.injEq, Prod.mk.injEq] at hsame
            exact ⟨rd', hrd', h.2.1.trans hsame.2.1, h.1.trans hsame.1⟩
          · intro h
            obtain ⟨rd₁, hrd₁, hsig, hval⟩ := h.settled rd hrd
            have hns := h.ns
            rw [hlive, hall] at hns
            have hsame := (status_of_settles engine hlive hrd').symm.trans (status_of_settles engine hlive hrd₁)
            rw [hsame, hsig, hval, Option.some.inj hns]

end Rows

/-! ## The points of a signal -/

section Chart
variable {step : ℚ} {window : Window} {w : Workload} {sig : Signal}

theorem points_of_find {e : Entry} (h : window.entries.find? (serves w sig) = some e) :
    (signal (.ok window) w sig).map Points.points = .ok (e.2.map fun s => (s.ts, s.value)) := by
  unfold signal
  dsimp only
  rw [h]
  rfl

/-- Series with the same points are as new as each other. -/
theorem stale_congr {l l' : List Sample}
    (h : l'.map (fun s => (s.ts, s.value)) = l.map fun s => (s.ts, s.value)) :
    stale step window l' = stale step window l := by
  have hts : l'.map Sample.ts = l.map Sample.ts := by
    have hfst := congrArg (List.map Prod.fst) h
    rwa [List.map_map, List.map_map] at hfst
  unfold stale newest
  rw [hts]

/-- A chart survives the deletion of the stale series exactly when it was not drawn from one. -/
theorem points_eq_iff (hlive : HasLiveFor step window w sig) :
    (signal (.ok (dropStale step window)) w sig).map Points.points
        = (signal (.ok window) w sig).map Points.points
      ↔ FirstIsLive step window w sig := by
  obtain ⟨e₀, hmem, hserves, hfresh⟩ := hlive
  have hfind : ∃ e, window.entries.find? (serves w sig) = some e :=
    Option.isSome_iff_exists.mp (List.find?_isSome.mpr ⟨e₀, hmem, hserves⟩)
  have hkept : ∃ e, (dropStale step window).entries.find? (serves w sig) = some e :=
    Option.isSome_iff_exists.mp
      (List.find?_isSome.mpr ⟨e₀, List.mem_filter.mpr ⟨hmem, by simp [hfresh]⟩, hserves⟩)
  obtain ⟨e, he⟩ := hfind
  obtain ⟨e', he'⟩ := hkept
  have hfresh' : stale step window e'.2 = false := by
    have := (List.mem_filter.mp (List.mem_of_find?_eq_some he')).2
    simpa using this
  rw [points_of_find he, points_of_find he']
  constructor
  · intro h x hx
    obtain rfl := Option.some.inj (he.symm.trans hx)
    rw [← stale_congr (Except.ok.inj h)]
    exact hfresh'
  · intro h
    -- the first series is kept, so it is still the first
    have hsplit := List.find?_eq_some_iff_append.mp he
    obtain ⟨hs, before, after, hentries, hbefore⟩ := hsplit
    have hsame : (dropStale step window).entries.find? (serves w sig) = some e := by
      show (window.entries.filter fun e => !stale step window e.2).find? (serves w sig) = some e
      rw [List.find?_filter, List.find?_eq_some_iff_append]
      refine ⟨by simp [hs, h e he], before, after, hentries, ?_⟩
      intro x hx
      have := hbefore x hx
      simp_all
    rw [Option.some.inj (he'.symm.trans hsame)]

end Chart

/-! ## The exact condition -/

/-- **Live status.** Over any ring, dead pods do not show for workloads that have a live series if and only if
    the live readings of such a workload settle its row as all its readings do, and the first series of each
    signal it has a live series of is live. -/
theorem live_status_iff (signals : List Signal) (engine : Option MergedGraph) (step : ℚ) (ring : Ring) :
    StatusFromLive signals engine step ring.window ∧ PointsFromLive step ring.window ↔
      (∀ w, HasLive step ring.window w →
        SettledAlike (readingsOf signals ring.window w) (readingsOf signals (dropStale step ring.window) w)) ∧
      ∀ w sig, HasLiveFor step ring.window w sig → FirstIsLive step ring.window w sig := by
  constructor
  · rintro ⟨hstatus, hpoints⟩
    refine ⟨?_, ?_⟩
    · intro w hw
      exact (status_eq_iff engine).mp (hstatus w hw)
    · intro w sig hlive
      exact (points_eq_iff hlive).mp (hpoints w sig hlive)
  · rintro ⟨hrows, hfirst⟩
    refine ⟨?_, ?_⟩
    · intro w hw
      exact (status_eq_iff engine).mpr (hrows w hw)
    · intro w sig hlive
      exact (points_eq_iff hlive).mpr (hfirst w sig hlive)

/-! ## A restart during a storm -/

/-- A pod that was stalled when it died. -/
def deadSample : Sample := ⟨0, "cooling-monitor-6644486769-6wlst", "factory-data", "psi_io", 4 / 5⟩

/-- The pod that replaced it. -/
def liveSample : Sample := ⟨100, "cooling-monitor-6644486769-x2k9p", "factory-data", "psi_io", 1 / 100⟩

def restartedRing : Ring := (Ring.empty 180).addAll [deadSample, liveSample]

/-- The dead pod's last level is reported for the workload, and its points are charted, although a live pod
    has both. -/
theorem restarted_shows_dead_pod :
    ¬ StatusFromLive ["psi_io", "psi_cpu", "psi_mem"] none 5 restartedRing.window ∧
      ¬ PointsFromLive 5 restartedRing.window := by
  have hmem : (liveSample.key, [liveSample]) ∈ restartedRing.window.entries := by decide +kernel
  have hfresh : stale 5 restartedRing.window [liveSample] = false := by decide +kernel
  constructor
  · intro h
    have hlive : HasLive 5 restartedRing.window "cooling-monitor" :=
      ⟨_, hmem, ⟨"factory-data", "cooling-monitor-6644486769-x2k9p", "psi_io"⟩, by decide +kernel,
        by decide +kernel, by simp, hfresh⟩
    exact absurd (h "cooling-monitor" hlive) (by decide +kernel)
  · intro h
    have hlive : HasLiveFor 5 restartedRing.window "cooling-monitor" "psi_io" :=
      ⟨_, hmem, by decide +kernel, hfresh⟩
    exact absurd (h "cooling-monitor" "psi_io" hlive) (by decide +kernel)

end EdgeCausal.Api
