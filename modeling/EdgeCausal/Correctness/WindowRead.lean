import EdgeCausal.Correctness.GridResample
import EdgeCausal.Correctness.Serving

/-!
# `Correctness.WindowRead` — from the samples polled to the vectors of a pass

The aggregator files samples under keys made of names, keeps the last of each and serves them as text; the engine
takes the keys apart, parses the times and reads the series onto its grid. Between the two nothing is lost or mixed
up: over any run of the aggregator, the vectors built from a window it served are the samples it had added, the last
of each pod and signal, on the grid (`engine_reads_added`).
-/

namespace EdgeCausal.Api

open Lib

/-! ## The wire -/

section Wire
variable (rfc3339 : ℚ → String)

/-- A sample as it is served and fetched: its time is text. -/
def wireSample (s : Sample) : RawSample := ⟨some (rfc3339 s.ts), s.value⟩

/-- A window as it is fetched. -/
def wire (w : Window) : RawWindow := w.mapVals fun _ samples => samples.map (wireSample rfc3339)

end Wire

/-- The names of the sample can be told apart in its key. -/
structure Sample.Named (s : Sample) : Prop where
  ns : Unslashed s.ns
  pod : Unslashed s.pod
  sig : Unslashed s.sig

/-- The key of a sample names its pod and its signal. -/
theorem Sample.Named.keyParts {s : Sample} (h : s.Named) : keyParts s.key = some (s.pod, s.sig) := by
  have htext : s.key.toList = List.intercalate ['/'] [s.ns.toList, s.pod.toList, s.sig.toList] := by
    simp [Sample.key, List.intercalate]
  have hparts : s.key.toList.splitOn '/' = [s.ns.toList, s.pod.toList, s.sig.toList] := by
    rw [htext, List.splitOn_intercalate]
    · intro l hl
      rcases List.mem_cons.mp hl with rfl | hl
      · exact h.ns
      rcases List.mem_cons.mp hl with rfl | hl
      · exact h.pod
      · rw [List.mem_singleton.mp hl]
        exact h.sig
    · simp
  unfold EdgeCausal.keyParts
  rw [hparts]
  simp

/-! ## What was added -/

/-- Pods of one name are of one namespace, as far as a signal sees them. -/
def OneNamespace (added : List Sample) : Prop :=
  ∀ s ∈ added, ∀ s' ∈ added, s.pod = s'.pod → s.sig = s'.sig → s.ns = s'.ns

/-- The last samples of a pod and a signal. -/
def kept (cap : ℕ) (added : List Sample) (pod : Pod) (sig : Signal) : List Sample :=
  lastN cap (added.filter fun s => s.pod = pod ∧ s.sig = sig)

/-- Samples with the times that are read of them. -/
def points (read : ℚ → ℚ) (samples : List Sample) : List Stamped := samples.map fun s => (read s.ts, s.value)

section Added
variable {added : List Sample} {cap : ℕ} {pod : Pod} {sig : Signal} {s : Sample}

theorem mem_of_mem_kept (h : s ∈ kept cap added pod sig) : s ∈ added ∧ s.pod = pod ∧ s.sig = sig := by
  simpa using List.mem_filter.mp (mem_of_mem_lastN h)

/-- Every key of the ring is that of a sample. -/
theorem exists_of_mem_keys {k : String} (h : k ∈ ((Ring.empty cap).addAll added).data.keys) :
    ∃ s ∈ added, s.key = k := by
  induction added using List.reverseRecOn with
  | nil => exact absurd h List.not_mem_nil
  | append_singleton l s ih =>
      rw [Ring.addAll_concat] at h
      rcases Dict.mem_keys_set.mp h with rfl | h
      · exact ⟨s, by simp, rfl⟩
      · obtain ⟨s', hs', hk⟩ := ih h
        exact ⟨s', List.mem_append_left _ hs', hk⟩

/-- With pods of one namespace, a key is a pod and a signal. -/
theorem key_eq_iff (hnamed : ∀ s ∈ added, s.Named) (hone : OneNamespace added) (hs : s ∈ added) {s' : Sample}
    (hs' : s' ∈ added) : s'.key = s.key ↔ s'.pod = s.pod ∧ s'.sig = s.sig := by
  have hn := hnamed s hs
  have hn' := hnamed s' hs'
  have hkey : s'.key = s.key ↔ s'.ns = s.ns ∧ s'.pod = s.pod ∧ s'.sig = s.sig :=
    key_inj hn'.ns hn.ns hn'.pod hn.pod
  rw [hkey]
  constructor
  · exact And.right
  · rintro ⟨hpod, hsig⟩
    exact ⟨hone s' hs' s hs hpod hsig, hpod, hsig⟩

/-- **The ring keeps the last samples of each pod and signal.** -/
theorem get?_ring (hnamed : ∀ s ∈ added, s.Named) (hone : OneNamespace added) (hs : s ∈ added) :
    (((Ring.empty cap).addAll added).data.get? s.key).getD [] = kept cap added s.pod s.sig := by
  rw [Ring.addAll_get?]
  have hfilter : (added.filter fun x => x.key = s.key) = added.filter fun x => x.pod = s.pod ∧ x.sig = s.sig := by
    refine List.filter_congr ?_
    intro x hx
    rw [decide_eq_decide]
    exact key_eq_iff hnamed hone hs hx
  rw [hfilter]
  rfl

end Added

/-! ## What is read -/

section Read
variable {cfg : GridConfig} {rfc3339 : ℚ → String} {fromisoformat : String → Option ℚ} {read : ℚ → ℚ}
  {added : List Sample} {cap : ℕ} {pod : Pod} {sig : Signal}

theorem parsed_wire {samples : List Sample}
    (hread : ∀ s ∈ samples, epoch fromisoformat (some (rfc3339 s.ts)) = some (read s.ts)) :
    parsed fromisoformat (samples.map (wireSample rfc3339)) = points read samples := by
  unfold parsed points
  rw [List.filterMap_map, ← List.filterMap_eq_map]
  refine List.filterMap_congr ?_
  intro s hs
  show (epoch fromisoformat (some (rfc3339 s.ts))).map _ = _
  rw [hread s hs]
  rfl

/-- **A series of the fetched window** is the kept samples of a wanted signal, twelve at least. -/
theorem isSeries_wire (hread : ∀ s ∈ added, epoch fromisoformat (some (rfc3339 s.ts)) = some (read s.ts))
    (hnamed : ∀ s ∈ added, s.Named) (hone : OneNamespace added) {samples : List RawSample} :
    IsSeries cfg fromisoformat (wire rfc3339 ((Ring.empty cap).addAll added).window) pod sig samples ↔
      samples = (kept cap added pod sig).map (wireSample rfc3339) ∧ sig ∈ cfg.wanted ∧
        12 ≤ (kept cap added pod sig).length := by
  have hget : ∀ key, (wire rfc3339 ((Ring.empty cap).addAll added).window).get? key
      = (((Ring.empty cap).addAll added).data.get? key).map fun l => l.map (wireSample rfc3339) := by
    intro key
    rw [← Ring.get?_window]
    exact Dict.get?_mapVals _ _ _
  have hparsed : parsed fromisoformat ((kept cap added pod sig).map (wireSample rfc3339))
      = points read (kept cap added pod sig) :=
    parsed_wire fun s hs => hread s (mem_of_mem_kept hs).1
  have hlength : (parsed fromisoformat ((kept cap added pod sig).map (wireSample rfc3339))).length
      = (kept cap added pod sig).length := by
    rw [hparsed]
    exact List.length_map _
  constructor
  · rintro ⟨⟨key, hkey, hid⟩, hwanted, henough⟩
    rw [hget, Option.map_eq_some_iff] at hkey
    obtain ⟨l, hl, rfl⟩ := hkey
    obtain ⟨s, hs, rfl⟩ := exists_of_mem_keys (Dict.mem_keys_iff_get?.mpr ⟨l, hl⟩)
    obtain ⟨rfl, rfl⟩ := Prod.mk.inj (Option.some.inj ((hnamed s hs).keyParts.symm.trans hid))
    have hkept : l = kept cap added s.pod s.sig := by
      rw [← get?_ring hnamed hone hs, hl]
      rfl
    subst hkept
    exact ⟨rfl, hwanted, hlength ▸ henough⟩
  · rintro ⟨rfl, hwanted, henough⟩
    refine ⟨?_, hwanted, hlength.symm ▸ henough⟩
    obtain ⟨s, hs⟩ := List.exists_mem_of_length_pos (show 0 < (kept cap added pod sig).length by omega)
    obtain ⟨hadded, rfl, rfl⟩ := mem_of_mem_kept hs
    refine ⟨s.key, ?_, (hnamed s hadded).keyParts⟩
    have hring : (((Ring.empty cap).addAll added).data.get? s.key).getD [] = kept cap added s.pod s.sig :=
      get?_ring hnamed hone hadded
    rw [hget]
    cases hl : ((Ring.empty cap).addAll added).data.get? s.key with
    | none =>
        rw [hl] at hring
        rw [← hring] at henough
        exact absurd henough (by simp)
    | some l =>
        rw [hl] at hring
        obtain rfl : l = kept cap added s.pod s.sig := hring
        rfl

theorem uniquePods_wire (hnamed : ∀ s ∈ added, s.Named) (hone : OneNamespace added) :
    UniquePods (wire rfc3339 ((Ring.empty cap).addAll added).window) := by
  have hkeys : ∀ k ∈ (wire rfc3339 ((Ring.empty cap).addAll added).window).keys, ∃ s ∈ added, s.key = k := by
    intro k hk
    unfold wire at hk
    rw [Dict.keys_mapVals, Dict.mem_keys_iff_get?] at hk
    obtain ⟨l, hl⟩ := hk
    rw [Ring.get?_window] at hl
    exact exists_of_mem_keys (Dict.mem_keys_iff_get?.mpr ⟨l, hl⟩)
  intro key hkey key' hkey' id hid hid'
  obtain ⟨s, hs, rfl⟩ := hkeys key hkey
  obtain ⟨s', hs', rfl⟩ := hkeys key' hkey'
  have hparts := (hnamed s hs).keyParts.symm.trans (hid.trans (hid'.symm.trans (hnamed s' hs').keyParts))
  obtain ⟨hpod, hsig⟩ := Prod.mk.inj (Option.some.inj hparts)
  exact (key_eq_iff hnamed hone hs' hs).mpr ⟨hpod, hsig⟩

end Read

/-- The kept samples of the wanted signals that have twelve of a pod, by their times as read. -/
def readStamps (cfg : GridConfig) (read : ℚ → ℚ) (cap : ℕ) (added : List Sample) : Set ℚ :=
  {t | ∃ pod sig, sig ∈ cfg.wanted ∧ 12 ≤ (kept cap added pod sig).length ∧
    ∃ s ∈ kept cap added pod sig, read s.ts = t}

/-- **The engine reads what was added.** Over every interleaving of polling, requests and posts: of a window that was
    served the engine builds, for each wanted signal, the vectors of just those pods whose kept samples, twelve at
    least, lie on the grid, and each is the grid of the last samples added of that pod and signal; the grid ends at
    the newest of all of them, or at the epoch. Names must not hold the separator, a pod of one name must be of one
    namespace, and times must be read as they were written. -/
theorem engine_reads_added (cfg : GridConfig) (rfc3339 : ℚ → String) (fromisoformat : String → Option ℚ)
    (read : ℚ → ℚ) (parseFloat : String → Option Float64) (p : Pack) (l3 : Bool) (acts : List Act)
    (before : List Effect) (w : Window) (after : List Effect)
    (hlog : (serve parseFloat p l3 acts).2 = before ++ .window w :: after)
    (hread : ∀ s ∈ addedIn before, epoch fromisoformat (some (rfc3339 s.ts)) = some (read s.ts))
    (hnamed : ∀ s ∈ addedIn before, s.Named) (hone : OneNamespace (addedIn before)) (events : List RawEvent) :
    let series := kept (ringCap p).toNat (addedIn before)
    ∃ latest, IsGreatest (insert 0 (readStamps cfg read (ringCap p).toNat (addedIn before))) latest ∧
      ∀ sig pod vec, ((buildInputs cfg fromisoformat (wire rfc3339 w) events).1 sig).get? pod = some vec ↔
        sig ∈ cfg.wanted ∧ 12 ≤ (series pod sig).length ∧ OnGrid cfg latest (points read (series pod sig)) vec := by
  intro series
  have hw : w = ((Ring.empty (ringCap p).toNat).addAll (addedIn before)).window :=
    (serving_run acts).answers before (.window w) after hlog
  have hseries : ∀ {pod sig samples}, IsSeries cfg fromisoformat (wire rfc3339 w) pod sig samples ↔
      samples = (series pod sig).map (wireSample rfc3339) ∧ sig ∈ cfg.wanted ∧ 12 ≤ (series pod sig).length := by
    rw [hw]
    exact isSeries_wire hread hnamed hone
  have hparsed : ∀ pod sig, parsed fromisoformat ((series pod sig).map (wireSample rfc3339))
      = points read (series pod sig) :=
    fun pod sig => parsed_wire fun s hs => hread s (mem_of_mem_kept hs).1
  have hstamps : stamps cfg fromisoformat (wire rfc3339 w)
      = readStamps cfg read (ringCap p).toNat (addedIn before) := by
    ext t
    constructor
    · rintro ⟨pod, sig, samples, hsamples, x, hx, rfl⟩
      obtain ⟨rfl, hwanted, henough⟩ := hseries.mp hsamples
      rw [hparsed] at hx
      obtain ⟨s, hs, rfl⟩ := List.mem_map.mp hx
      exact ⟨pod, sig, hwanted, henough, s, hs, rfl⟩
    · rintro ⟨pod, sig, hwanted, henough, s, hs, rfl⟩
      refine ⟨pod, sig, _, hseries.mpr ⟨rfl, hwanted, henough⟩, (read s.ts, s.value), ?_, rfl⟩
      rw [hparsed]
      exact List.mem_map_of_mem hs
  refine ⟨_, hstamps ▸ latest_greatest cfg fromisoformat (wire rfc3339 w), ?_⟩
  intro sig pod vec
  rw [buildInputs_get? (hw ▸ uniquePods_wire hnamed hone)]
  constructor
  · rintro ⟨samples, hsamples, hgrid⟩
    obtain ⟨rfl, hwanted, henough⟩ := hseries.mp hsamples
    rw [hparsed] at hgrid
    exact ⟨hwanted, henough, hgrid⟩
  · rintro ⟨hwanted, henough, hgrid⟩
    refine ⟨_, hseries.mpr ⟨rfl, hwanted, henough⟩, ?_⟩
    rw [hparsed]
    exact hgrid

/-- The twelve samples of a pod's first minute. -/
def minuteAdded : List Sample :=
  (List.range 12).map fun i => ⟨5 * i, "timescaledb-0", "plant", "mem", 94 / 100⟩

/-- Twelve polls that answer one of the two queries, and a request for the window. -/
def minuteActs : List Act :=
  let poll (i : ℕ) : List Act :=
    [.tick, .answer (.ok []),
      .answer (.ok [⟨.ofList [("namespace", "plant"), ("pod", "timescaledb-0")], some "0.94", 5 * i⟩]), .add ""]
  (List.range 12).flatMap poll ++ [.getWindow]

/-- The seconds of that minute as text. -/
def minuteText (t : ℚ) : String :=
  let digit (n : ℕ) : Char := Char.ofNat (48 + n)
  "1970-01-01T00:00:" ++ String.ofList [digit (t.num.toNat / 10), digit (t.num.toNat % 10)] ++ "Z"

theorem minuteActs_log : (serve stormFloat stormPack true minuteActs).2
    = minuteAdded.map Effect.added ++ [.window ((Ring.empty 180).addAll minuteAdded).window] := by
  rfl

theorem minuteAdded_read : ∀ s ∈ minuteAdded, epoch isoSeconds (some (minuteText s.ts)) = some s.ts := by
  decide +kernel

theorem minuteAdded_named : ∀ s ∈ minuteAdded, s.Named := by
  intro s hs
  obtain ⟨i, -, rfl⟩ := List.mem_map.mp hs
  have hns : Unslashed "plant" := by decide
  have hpod : Unslashed "timescaledb-0" := by decide
  have hsig : Unslashed "mem" := by decide
  exact ⟨hns, hpod, hsig⟩

theorem minuteAdded_one : OneNamespace minuteAdded := by
  intro s hs s' hs' _ _
  obtain ⟨i, -, rfl⟩ := List.mem_map.mp hs
  obtain ⟨j, -, rfl⟩ := List.mem_map.mp hs'
  rfl

theorem engine_reads_added_minute :
    let w := ((Ring.empty 180).addAll minuteAdded).window
    ∃ latest, IsGreatest (insert 0 (readStamps gridDefaults id 180 minuteAdded)) latest ∧
      ∀ sig pod vec, ((buildInputs gridDefaults isoSeconds (wire minuteText w) []).1 sig).get? pod = some vec ↔
        sig ∈ gridDefaults.wanted ∧ 12 ≤ (kept 180 minuteAdded pod sig).length ∧
          OnGrid gridDefaults latest (points id (kept 180 minuteAdded pod sig)) vec := by
  intro w
  exact engine_reads_added gridDefaults minuteText isoSeconds id stormFloat stormPack true minuteActs
    (minuteAdded.map Effect.added) w [] minuteActs_log minuteAdded_read minuteAdded_named minuteAdded_one []

end EdgeCausal.Api
