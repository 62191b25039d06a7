import EdgeCausal.Concurrent.Threads
import EdgeCausal.Factory.Interlock

/-!
# `Correctness.SafeMode` — trips of the interlock

The ticker decides on what it loaded, and the heartbeat may come in between. Whatever the order of their loads and
stores: safe mode is on exactly when no beat has cleared the last trip; a trip answers to a silence that was seen, and
comes once for each silence; and a silence that lasts through a check is not missed (`safe_mode_exact`).
-/

namespace EdgeCausal.Factory

open Lib

/-! ## The log -/

def Note.stamp? : Note → Option ℤ
  | .beaten stamp => some stamp
  | _ => none

/-- The last beat of a log; before any, the start. -/
def lastBeat (start : ℤ) (log : List Note) : ℤ := (log.filterMap Note.stamp?).getLastD start

/-- A trip that no beat has cleared. -/
def Tripped (log : List Note) : Prop :=
  ∃ before now seen after, log = before ++ .tripped now seen :: after ∧ .cleared ∉ after

/-- A silence that was seen: at the time, the last beat was more than three seconds old. -/
def Silent (start : ℤ) (log : List Note) (now seen : ℤ) : Prop :=
  ∃ before after, log = before ++ .loaded now seen :: after ∧ seen = lastBeat start before ∧ 3000 < now - seen

/-- A trip answers to a silence, and none is on. -/
def Warranted (start : ℤ) (before : List Note) : Note → Prop
  | .tripped now seen => Silent start before now seen ∧ ¬ Tripped before
  | .loaded _ seen => seen = lastBeat start before
  | _ => True

section Log
variable {start : ℤ} {log : List Note} {x : Note} {now seen : ℤ}

theorem lastBeat_concat_of_none (h : x.stamp? = none) : lastBeat start (log ++ [x]) = lastBeat start log := by
  unfold lastBeat
  rw [List.filterMap_append]
  simp [h]

theorem lastBeat_beaten (stamp : ℤ) : lastBeat start (log ++ [.beaten stamp]) = stamp := by
  unfold lastBeat
  rw [List.filterMap_append]
  simp [Note.stamp?]

theorem Silent.mono (h : Silent start log now seen) (out : List Note) : Silent start (log ++ out) now seen := by
  obtain ⟨before, after, rfl, hseen, hlate⟩ := h
  exact ⟨before, after ++ out, by simp, hseen, hlate⟩

theorem not_tripped_nil : ¬ Tripped [] := by
  rintro ⟨before, now, seen, after, h, -⟩
  exact absurd h (by simp)

theorem not_tripped_cleared : ¬ Tripped (log ++ [.cleared]) := by
  rintro ⟨before, now, seen, after, h, hnot⟩
  rcases List.eq_nil_or_concat after with rfl | ⟨init, last, rfl⟩
  · exact absurd (List.append_inj' h rfl).2 (by simp)
  · rw [List.concat_eq_append, ← List.cons_append, ← List.append_assoc] at h
    obtain rfl : Note.cleared = last := (List.cons.inj (List.append_inj' h rfl).2).1
    exact hnot (by simp)

theorem tripped_trip (now seen : ℤ) : Tripped (log ++ [.tripped now seen]) := ⟨log, now, seen, [], rfl, by simp⟩

/-- Only a trip and a clear say whether a trip is on. -/
theorem tripped_concat (hcleared : x ≠ .cleared) (htrip : ∀ now seen, x ≠ .tripped now seen) :
    Tripped (log ++ [x]) ↔ Tripped log := by
  constructor
  · rintro ⟨before, now, seen, after, h, hnot⟩
    rcases List.eq_nil_or_concat after with rfl | ⟨init, last, rfl⟩
    · exact absurd (List.cons.inj (List.append_inj' h rfl).2).1 (htrip now seen)
    · rw [List.concat_eq_append, ← List.cons_append, ← List.append_assoc] at h
      refine ⟨before, now, seen, init, List.append_inj_left' h rfl, ?_⟩
      intro hmem
      exact hnot (by simp [hmem])
  · rintro ⟨before, now, seen, after, rfl, hnot⟩
    refine ⟨before, now, seen, after ++ [x], by simp, ?_⟩
    intro hmem
    rcases List.mem_append.mp hmem with hmem | hmem
    · exact hnot hmem
    · exact hcleared (List.mem_singleton.mp hmem).symm

end Log

/-! ## What holds -/

/-- What the ticker may assert where it stands. -/
def Ticker.At (start : ℤ) (log : List Note) : Ticker → Prop
  | .late now seen => Silent start log now seen
  | .tripping now seen => Silent start log now seen ∧ ¬ Tripped log
  | _ => True

/-- What holds at any moment. -/
structure Guarded (start : ℤ) (s : Interlock) (log : List Note) : Prop where
  last : s.last = lastBeat start log
  tripped : s.tripped = true ↔ Tripped log
  ticker : s.ticker.At start log
  warranted : Each (Warranted start) log

section Step
variable {start : ℤ} {s : Interlock} {log : List Note}

theorem Ticker.At.concat {t : Ticker} {x : Note} (h : t.At start log) (htrip : ∀ now seen, x ≠ .tripped now seen) :
    t.At start (log ++ [x]) := by
  cases t with
  | late now seen => exact h.mono _
  | tripping now seen =>
      refine ⟨h.1.mono _, ?_⟩
      by_cases hcleared : x = .cleared
      · rw [hcleared]
        exact not_tripped_cleared
      · rw [tripped_concat hcleared htrip]
        exact h.2
  | _ => trivial

/-- **A step keeps what holds.** -/
theorem Guarded.step (h : Guarded start s log) (ev : InterlockEvent) :
    Guarded start (interlockStep s ev).1 (log ++ (interlockStep s ev).2) := by
  unfold interlockStep
  split
  · rw [List.append_nil]
    exact ⟨h.last, h.tripped, h.ticker, h.warranted⟩
  · refine ⟨(lastBeat_beaten _).symm, ?_, h.ticker.concat (by simp), h.warranted.concat trivial⟩
    rw [tripped_concat (by simp) (by simp)]
    exact h.tripped
  · refine ⟨?_, ?_, h.ticker.concat (by simp), h.warranted.concat trivial⟩
    · rw [lastBeat_concat_of_none rfl]
      exact h.last
    · exact iff_of_false (by simp) not_tripped_cleared
  · refine ⟨?_, ?_, trivial, h.warranted.concat trivial⟩
    · rw [lastBeat_concat_of_none rfl]
      exact h.last
    · rw [tripped_concat (by simp) (by simp)]
      exact h.tripped
  · refine ⟨?_, ?_, ?_, h.warranted.concat h.last⟩
    · rw [lastBeat_concat_of_none rfl]
      exact h.last
    · rw [tripped_concat (by simp) (by simp)]
      exact h.tripped
    · dsimp only
      split
      · rename_i hlate
        exact ⟨log, [], rfl, h.last, hlate⟩
      · trivial
  · rename_i hticker
    have hat := h.ticker
    rw [hticker] at hat
    rw [List.append_nil]
    refine ⟨h.last, h.tripped, ?_, h.warranted⟩
    dsimp only
    split
    · trivial
    · rename_i hnot
      exact ⟨hat, fun htripped => hnot (h.tripped.mpr htripped)⟩
  · rename_i hticker
    have hat := h.ticker
    rw [hticker] at hat
    refine ⟨?_, ?_, trivial, h.warranted.concat hat⟩
    · rw [lastBeat_concat_of_none rfl]
      exact h.last
    · exact iff_of_true rfl (tripped_trip _ _)
  · refine ⟨?_, ?_, trivial, h.warranted.concat trivial⟩
    · rw [lastBeat_concat_of_none rfl]
      exact h.last
    · rw [tripped_concat (by simp) (by simp)]
      exact h.tripped
  · rw [List.append_nil]
    exact h

theorem guarded_run (start : ℤ) (events : List InterlockEvent) :
    Guarded start (interlock start events).1 (interlock start events).2 := by
  refine logged_inv ⟨rfl, iff_of_false (by simp [Interlock.start]) not_tripped_nil, trivial, each_nil⟩ ?_ events
  exact fun s log ev h => h.step ev

end Step

/-! ## A silence that lasts -/

/-- An event that leaves the atomics to the ticker. -/
def Quiet (ev : InterlockEvent) : Prop := ev ≠ .store ∧ ev ≠ .clear

/-- While the heartbeat is silent: the last beat stays, and a time that was looked at and is late for it has tripped,
    unless its check is still to come to that. -/
structure Watching (last : ℤ) (s : Interlock) (log : List Note) : Prop where
  heard : s.last = last
  ticker : ∀ now, .ticked now ∈ log → silence < now - last →
    s.tripped = true ∨ s.ticker = .timed now ∨ ∃ seen, s.ticker = .late now seen ∨ s.ticker = .tripping now seen

theorem Watching.step {last : ℤ} {s : Interlock} {log : List Note} (h : Watching last s log) {ev : InterlockEvent}
    (hquiet : Quiet ev) : Watching last (interlockStep s ev).1 (log ++ (interlockStep s ev).2) := by
  have hother : ∀ {x : Note} {now : ℤ}, (∀ t, x ≠ .ticked t) → .ticked now ∈ log ++ [x] → .ticked now ∈ log := by
    intro x now hx hmem
    rcases List.mem_append.mp hmem with hmem | hmem
    · exact hmem
    · exact absurd (List.mem_singleton.mp hmem).symm (hx now)
  unfold interlockStep
  split
  · rw [List.append_nil]
    exact ⟨h.heard, h.ticker⟩
  · exact absurd rfl hquiet.1
  · exact absurd rfl hquiet.2
  · rename_i now hticker
    refine ⟨h.heard, ?_⟩
    intro t hmem hlate
    rcases List.mem_append.mp hmem with hmem | hmem
    · have hbefore := h.ticker t hmem hlate
      rw [hticker] at hbefore
      exact Or.inl (by simpa using hbefore)
    · obtain rfl : t = now := by simpa using hmem
      exact Or.inr (Or.inl rfl)
  · rename_i now hticker
    refine ⟨h.heard, ?_⟩
    intro t hmem hlate
    have hbefore := h.ticker t (hother (by simp) hmem) hlate
    rw [hticker] at hbefore
    rcases hbefore with htripped | hnow | ⟨seen, hnow | hnow⟩
    · exact Or.inl htripped
    · obtain rfl := Ticker.timed.inj hnow
      rw [h.heard]
      exact Or.inr (Or.inr ⟨last, Or.inl (if_pos hlate)⟩)
    · exact absurd hnow (by simp)
    · exact absurd hnow (by simp)
  · rename_i now seen hticker
    rw [List.append_nil]
    refine ⟨h.heard, ?_⟩
    intro t hmem hlate
    have hbefore := h.ticker t hmem hlate
    rw [hticker] at hbefore
    cases htripped : s.tripped with
    | true => exact Or.inl rfl
    | false =>
        rcases hbefore with hyes | hnow | ⟨seen', hnow | hnow⟩
        · exact absurd (htripped.symm.trans hyes) (by simp)
        · exact absurd hnow (by simp)
        · obtain ⟨rfl, rfl⟩ := Ticker.late.inj hnow
          exact Or.inr (Or.inr ⟨seen, Or.inr rfl⟩)
        · exact absurd hnow (by simp)
  · exact ⟨h.heard, fun _ _ _ => Or.inl rfl⟩
  · rename_i hticker
    refine ⟨h.heard, ?_⟩
    intro t hmem hlate
    have hbefore := h.ticker t (hother (by simp) hmem) hlate
    rw [hticker] at hbefore
    exact Or.inl (by simpa using hbefore)
  · rw [List.append_nil]
    exact h

theorem watching_run (s : Interlock) {events : List InterlockEvent} (hquiet : ∀ ev ∈ events, Quiet ev) :
    Watching s.last (logged interlockStep s events).1 (logged interlockStep s events).2 := by
  induction events using List.reverseRecOn with
  | nil => exact ⟨rfl, fun now h => absurd h List.not_mem_nil⟩
  | append_singleton events ev ih =>
      have hbefore := ih fun ev hev => hquiet ev (List.mem_append_left _ hev)
      have hlast := hbefore.step (hquiet ev (by simp))
      rw [logged_append]
      simpa [logged] using hlast

theorem state_eq_iff (s : Interlock) : s.state = "SAFE_MODE" ↔ s.tripped = true := by
  unfold Interlock.state
  cases s.tripped with
  | true => simp
  | false => simp

/-- **Safe mode is exact.** Over every interleaving of the heartbeat's callback and the ticker: safe mode is on exactly
    when there was a trip that no beat has cleared since; each trip answers to a load that found the last beat then
    known more than three seconds old, and none comes while another is on; and whenever the heartbeat stores nothing
    from some moment on, a check that looks at a time more than three seconds after the last beat leaves safe mode on
    when it is through. -/
theorem safe_mode_exact (start : ℤ) (events : List InterlockEvent) :
    let s := (interlock start events).1
    let log := (interlock start events).2
    (s.state = "SAFE_MODE" ↔ Tripped log) ∧ Each (Warranted start) log ∧
      ∀ later : List InterlockEvent, (∀ ev ∈ later, Quiet ev) →
        let out := logged interlockStep s later
        out.1.ticker = .idle → ∀ now, .ticked now ∈ out.2 → 3000 < now - s.last → out.1.state = "SAFE_MODE" := by
  intro s log
  have h := guarded_run start events
  refine ⟨(state_eq_iff s).trans h.tripped, h.warranted, ?_⟩
  intro later hquiet out hidle now hticked hlate
  rw [state_eq_iff]
  have hwatch := (watching_run s hquiet).ticker now hticked hlate
  change out.1.tripped = true ∨ out.1.ticker = _ ∨ _ at hwatch
  rw [hidle] at hwatch
  simpa using hwatch

end EdgeCausal.Factory
