import EdgeCausal.Api.Server
import EdgeCausal.Correctness.Aggregation

/-!
# `Correctness.Serving` — the process seen from outside

Requests fall between any two acts of the polling goroutine. `serverStep_fate` says what one act can do: add a
sample, print, store or post one event, or change nothing that is shared. From it every answer is a snapshot: the
ring of the samples added so far, and the last of the events stored so far, which are the breaching samples in
the order they were added.
-/

namespace EdgeCausal.Api

open Lib

/-! ## Reading the log -/

section Log
variable (log log' : List Effect)

def addedIn : List Sample := log.filterMap fun | .added s => some s | _ => none

def printedIn : List (Option Event) := log.filterMap fun | .printed line => some line | _ => none

def storedIn : List Event := log.filterMap fun | .stored ev => some ev | _ => none

def postedIn : List (Option Event) := log.filterMap fun | .posted body => some body | _ => none

variable {log log'}

theorem addedIn_append : addedIn (log ++ log') = addedIn log ++ addedIn log' := List.filterMap_append

theorem printedIn_append : printedIn (log ++ log') = printedIn log ++ printedIn log' := List.filterMap_append

theorem storedIn_append : storedIn (log ++ log') = storedIn log ++ storedIn log' := List.filterMap_append

theorem postedIn_append : postedIn (log ++ log') = postedIn log ++ postedIn log' := List.filterMap_append

end Log

/-! ## What a phase has left -/

namespace Phase

/-- The events found and not yet stored. -/
def pending : Phase → List Event
  | .idle => []
  | .asking _ _ events => events
  | .adding _ _ _ _ events => events
  | .printing ev events => ev :: events
  | .storing ev events => ev :: events

/-- The line printed whose event is not yet stored. -/
def ahead : Phase → List (Option Event)
  | .storing ev _ => [ev.marshal]
  | _ => []

end Phase

@[simp] theorem pending_emitting (events : List Event) : (emitting events).pending = events := by
  cases events <;> rfl

@[simp] theorem ahead_emitting (events : List Event) : (emitting events).ahead = [] := by
  cases events <;> rfl

@[simp] theorem pending_nextSignal (signals : List Signal) (events : List Event) :
    (nextSignal signals events).pending = events := by
  cases signals with
  | nil => exact pending_emitting events
  | cons => rfl

@[simp] theorem ahead_nextSignal (signals : List Signal) (events : List Event) :
    (nextSignal signals events).ahead = [] := by
  cases signals with
  | nil => exact ahead_emitting events
  | cons => rfl

@[simp] theorem pending_nextSample (sig : Signal) (samples : List Sample) (signals : List Signal)
    (events : List Event) : (nextSample sig samples signals events).pending = events := by
  cases samples with
  | nil => exact pending_nextSignal signals events
  | cons => rfl

@[simp] theorem ahead_nextSample (sig : Signal) (samples : List Sample) (signals : List Signal)
    (events : List Event) : (nextSample sig samples signals events).ahead = [] := by
  cases samples with
  | nil => exact ahead_nextSignal signals events
  | cons => rfl

/-! ## One act -/

/-- An event the pack allows: of the schema, above the threshold of its signal. -/
def Event.Warranted (p : Pack) (ev : Event) : Prop :=
  ev.Conforms ∧ thresholdFor ev.signal p = some ev.threshold ∧ ev.threshold.below ev.value = true

section Step
variable {parseFloat : String → Option Float64} {p : Pack} {l3 : Bool} {s : Server} {a : Act}

/-- Adding a sample appends at most one event, which says what it was found in. -/
theorem record_found (clock : String) (cur : Polled) (smp : Sample) :
    ∃ new, (record p (clockAt clock) cur smp).events = cur.events ++ new ∧
      new.map Event.source = (if Breaches p smp then [smp.source] else []) ∧ ∀ ev ∈ new, ev.Warranted p := by
  have hsource : (record p (clockAt clock) cur smp).events.map Event.source = _ := record_events cur smp
  unfold record at hsource ⊢
  dsimp only at hsource ⊢
  split at hsource
  · rename_i hschema
    rw [if_pos hschema]
    exact ⟨[], by simp, by simpa using hsource, by simp⟩
  · rename_i hschema
    rw [if_neg hschema]
    split at hsource
    · exact ⟨[], by simp, by simpa using hsource, by simp⟩
    · rename_i thr hthr
      split at hsource
      · rename_i habove
        rw [if_pos habove]
        refine ⟨_, rfl, by simpa using hsource, ?_⟩
        intro ev hev
        obtain rfl := List.mem_singleton.mp hev
        exact ⟨⟨rfl, by simp, not_not.mp hschema⟩, hthr, habove⟩
      · rename_i hbelow
        rw [if_neg hbelow]
        exact ⟨[], by simp, by simpa using hsource, by simp⟩

/-- The shared state is left alone, and the log shows no more than an answer. -/
structure Quiet (s s' : Server) (out : List Effect) : Prop where
  ring : s'.ring = s.ring
  recent : s'.recent = s.recent
  posting : s'.posting = s.posting
  pending : s'.phase.pending = s.phase.pending
  ahead : s'.phase.ahead = s.phase.ahead
  added : addedIn out = []
  printed : printedIn out = []
  stored : storedIn out = []
  posted : postedIn out = []

theorem Quiet.same (s : Server) (out : List Effect) (hadded : addedIn out = []) (hprinted : printedIn out = [])
    (hstored : storedIn out = []) (hposted : postedIn out = []) : Quiet s s out :=
  ⟨rfl, rfl, rfl, rfl, rfl, hadded, hprinted, hstored, hposted⟩

/-- The polling goroutine moves on with the events it has. -/
theorem Quiet.moved {phase : Phase} (hpending : phase.pending = s.phase.pending)
    (hahead : phase.ahead = s.phase.ahead) : Quiet s { s with phase := phase } [] :=
  ⟨rfl, rfl, rfl, hpending, hahead, rfl, rfl, rfl, rfl⟩

/-- **What one act can do**: nothing shared, or one sample added, one line printed, one event stored or one post
    sent. -/
theorem serverStep_fate (s : Server) (a : Act) :
    let s' := (serverStep parseFloat p l3 s a).1
    let out := (serverStep parseFloat p l3 s a).2
    Quiet s s' out ∨
    (∃ smp new, out = [.added smp] ∧ s'.ring = s.ring.add smp ∧ s'.recent = s.recent ∧ s'.posting = s.posting ∧
      s'.phase.pending = s.phase.pending ++ new ∧ s'.phase.ahead = s.phase.ahead ∧
      new.map Event.source = (if Breaches p smp then [smp.source] else []) ∧ ∀ ev ∈ new, ev.Warranted p) ∨
    (∃ ev events, s.phase = .printing ev events ∧ out = [.printed ev.marshal] ∧
      s' = { s with phase := .storing ev events }) ∨
    (∃ ev events, s.phase = .storing ev events ∧ (s', out) = storeStep l3 s ev events) ∨
    (∃ i body, s.posting[i]? = some body ∧ out = [.posted body] ∧
      s' = { s with posting := s.posting.eraseIdx i }) := by
  unfold serverStep
  by_cases hdown : s.down
  · rw [if_pos hdown]
    exact Or.inl (.same s [] rfl rfl rfl rfl)
  · rw [if_neg hdown]
    cases a with
    | tick =>
        cases hphase : s.phase with
        | idle =>
            refine Or.inl (.moved ?_ ?_)
            · rw [hphase]; exact pending_nextSignal _ _
            · rw [hphase]; exact ahead_nextSignal _ _
        | _ => exact Or.inl (.same s [] rfl rfl rfl rfl)
    | answer reply =>
        cases hphase : s.phase with
        | asking sig signals events =>
            dsimp only
            split
            · refine Or.inl (.moved ?_ ?_)
              · rw [hphase]; exact pending_nextSignal _ _
              · rw [hphase]; exact ahead_nextSignal _ _
            · refine Or.inl (.moved ?_ ?_)
              · rw [hphase]; exact pending_nextSample _ _ _ _
              · rw [hphase]; exact ahead_nextSample _ _ _ _
        | _ => exact Or.inl (.same s [] rfl rfl rfl rfl)
    | add clock =>
        cases hphase : s.phase with
        | adding sig smp samples signals events =>
            dsimp only
            unfold addStep
            split
            · refine Or.inl (.moved ?_ ?_)
              · rw [hphase]; exact pending_nextSample _ _ _ _
              · rw [hphase]; exact ahead_nextSample _ _ _ _
            · split
              · exact Or.inl ⟨rfl, rfl, rfl, rfl, rfl, rfl, rfl, rfl, rfl⟩
              · obtain ⟨new, hnew, hsource, hwarranted⟩ :=
                  record_found (p := p) clock ⟨s.ring, events⟩ { smp with sig := sig }
                refine Or.inr (Or.inl ⟨{ smp with sig := sig }, new, rfl, record_ring _ _, rfl, rfl, ?_, ?_,
                  hsource, hwarranted⟩)
                · exact (pending_nextSample _ _ _ _).trans hnew
                · exact ahead_nextSample _ _ _ _
        | _ => exact Or.inl (.same s [] rfl rfl rfl rfl)
    | print =>
        cases hphase : s.phase with
        | printing ev events => exact Or.inr (Or.inr (Or.inl ⟨ev, events, rfl, rfl, rfl⟩))
        | _ => exact Or.inl (.same s [] rfl rfl rfl rfl)
    | store =>
        cases hphase : s.phase with
        | storing ev events => exact Or.inr (Or.inr (Or.inr (Or.inl ⟨ev, events, rfl, rfl⟩)))
        | _ => exact Or.inl (.same s [] rfl rfl rfl rfl)
    | post i =>
        dsimp only
        cases hbody : s.posting[i]? with
        | some body => exact Or.inr (Or.inr (Or.inr (Or.inr ⟨i, body, hbody, rfl, rfl⟩)))
        | none => exact Or.inl (.same s [] rfl rfl rfl rfl)
    | getWindow => exact Or.inl (.same s _ rfl rfl rfl rfl)
    | getEvents => exact Or.inl (.same s _ rfl rfl rfl rfl)

end Step

/-! ## Runs -/

/-- What an answer shows of the log before it. -/
def Answered (p : Pack) (before : List Effect) : Effect → Prop
  | .window w => w = ((Ring.empty (ringCap p).toNat).addAll (addedIn before)).window
  | .events body => body = encodeAll (lastN recentCap (storedIn before)) ∧
      ∀ (j : ℕ) (ev : Event), (storedIn before)[j]? = some ev →
        ∃ smp : Sample, ((addedIn before).filter fun smp => Breaches p smp)[j]? = some smp ∧ smp.source = ev.source
  | _ => True

/-- The state after a log, and what the log shows. -/
structure Serving (p : Pack) (l3 : Bool) (s : Server) (log : List Effect) : Prop where
  ring : s.ring = (Ring.empty (ringCap p).toNat).addAll (addedIn log)
  recent : s.recent = lastN recentCap (storedIn log)
  found : (storedIn log ++ s.phase.pending).map Event.source
    = ((addedIn log).filter fun smp => Breaches p smp).map Sample.source
  warranted : ∀ ev ∈ storedIn log ++ s.phase.pending, ev.Warranted p
  printed : printedIn log = (storedIn log).map Event.marshal ++ s.phase.ahead
  posted : (postedIn log ++ s.posting).Perm (if l3 then (storedIn log).map Event.marshal else [])
  answers : ∀ before eff after, log = before ++ eff :: after → Answered p before eff

section Run
variable {parseFloat : String → Option Float64} {p : Pack} {l3 : Bool} {s : Server} {log out : List Effect}

theorem Serving.start : Serving p l3 (.start p) [] := by
  refine ⟨rfl, rfl, rfl, ?_, rfl, ?_, ?_⟩
  · intro ev hev
    exact absurd hev (by simp [storedIn, Server.start, Phase.pending])
  · cases l3 <;> exact List.Perm.refl _
  · intro before eff after h
    exact absurd h (by simp)

/-- Every stored event was found in the breaching sample that has its number. -/
theorem Serving.origin (h : Serving p l3 s log) (j : ℕ) (ev : Event) (hev : (storedIn log)[j]? = some ev) :
    ∃ smp, ((addedIn log).filter fun smp => Breaches p smp)[j]? = some smp ∧ smp.source = ev.source := by
  have hsource : (((addedIn log).filter fun smp => Breaches p smp).map Sample.source)[j]? = some ev.source := by
    rw [← h.found, List.getElem?_map, List.getElem?_append_left (List.getElem?_eq_some_iff.mp hev).1, hev]
    rfl
  rw [List.getElem?_map] at hsource
  exact Option.map_eq_some_iff.mp hsource

/-- An act that shows one effect at most keeps the answers, when it answers from the state it starts in. -/
theorem Serving.answers_append (h : Serving p l3 s log) (hlen : out.length ≤ 1)
    (hout : ∀ eff ∈ out, Answered p log eff) :
    ∀ before eff after, log ++ out = before ++ eff :: after → Answered p before eff := by
  intro before eff after heq
  rcases out with - | ⟨x, - | ⟨y, rest⟩⟩
  · rw [List.append_nil] at heq
    exact h.answers before eff after heq
  · rcases List.eq_nil_or_concat after with rfl | ⟨init, last, rfl⟩
    · obtain ⟨rfl, hx⟩ := List.append_inj' heq rfl
      obtain rfl : x = eff := by simpa using hx
      exact hout x (List.mem_singleton_self x)
    · rw [List.concat_eq_append, ← List.cons_append, ← List.append_assoc] at heq
      exact h.answers before eff init (List.append_inj_left' heq rfl)
  · exact absurd hlen (by simp)

/-- What an act answers, it answers from the state. -/
theorem Serving.answered (h : Serving p l3 s log) (a : Act) :
    (serverStep parseFloat p l3 s a).2.length ≤ 1 ∧ ∀ eff ∈ (serverStep parseFloat p l3 s a).2, Answered p log eff := by
  have hnone : ([] : List Effect).length ≤ 1 ∧ ∀ eff ∈ ([] : List Effect), Answered p log eff := by simp
  have hone : ∀ {eff}, Answered p log eff → [eff].length ≤ 1 ∧ ∀ x ∈ [eff], Answered p log x := by
    intro eff heff
    simpa using heff
  unfold serverStep
  split
  · exact hnone
  · split
    · exact hnone
    · split <;> exact hnone
    · unfold addStep
      split
      · exact hnone
      · split <;> exact hone trivial
    · exact hone trivial
    · exact hone trivial
    · split
      · exact hone trivial
      · exact hnone
    · exact hone (congrArg Ring.window h.ring)
    · exact hone ⟨congrArg encodeAll h.recent, h.origin⟩
    · exact hnone

/-- **Step.** One act keeps all of it. -/
theorem Serving.step (h : Serving p l3 s log) (a : Act) :
    Serving p l3 (serverStep parseFloat p l3 s a).1 (log ++ (serverStep parseFloat p l3 s a).2) := by
  obtain ⟨hlen, hout⟩ : (serverStep parseFloat p l3 s a).2.length ≤ 1 ∧
      ∀ eff ∈ (serverStep parseFloat p l3 s a).2, Answered p log eff := h.answered a
  have hanswers := h.answers_append hlen hout
  clear hlen hout
  have hfate : Quiet s (serverStep parseFloat p l3 s a).1 (serverStep parseFloat p l3 s a).2 ∨ _ := serverStep_fate s a
  generalize (serverStep parseFloat p l3 s a).1 = s', (serverStep parseFloat p l3 s a).2 = out at hfate hanswers ⊢
  rcases hfate with hquiet | ⟨smp, new, rfl, hring, hrecent, hposting, hpending, hahead, hsource, hwarranted⟩ |
    ⟨ev, events, hphase, rfl, rfl⟩ | ⟨ev, events, hphase, hstore⟩ | ⟨i, body, hbody, rfl, rfl⟩
  · refine ⟨?_, ?_, ?_, ?_, ?_, ?_, hanswers⟩
    · rw [hquiet.ring, addedIn_append, hquiet.added, List.append_nil, h.ring]
    · rw [hquiet.recent, storedIn_append, hquiet.stored, List.append_nil, h.recent]
    · rw [storedIn_append, addedIn_append, hquiet.stored, hquiet.added, hquiet.pending, List.append_nil,
        List.append_nil, h.found]
    · rw [storedIn_append, hquiet.stored, hquiet.pending, List.append_nil]
      exact h.warranted
    · rw [printedIn_append, storedIn_append, hquiet.printed, hquiet.stored, hquiet.ahead, List.append_nil,
        List.append_nil, h.printed]
    · rw [postedIn_append, storedIn_append, hquiet.posted, hquiet.stored, hquiet.posting, List.append_nil,
        List.append_nil]
      exact h.posted
  · -- a sample is added: its event, if any, joins the pending ones
    have hadded : addedIn (log ++ [.added smp]) = addedIn log ++ [smp] := addedIn_append
    have hstored : storedIn (log ++ [.added smp]) = storedIn log := storedIn_append.trans (List.append_nil _)
    refine ⟨?_, ?_, ?_, ?_, ?_, ?_, hanswers⟩
    · rw [hring, hadded, h.ring, Ring.addAll_concat]
    · rw [hrecent, hstored, h.recent]
    · rw [hstored, hadded, hpending, ← List.append_assoc, List.map_append, h.found, hsource, List.filter_append,
        List.map_append]
      by_cases hbreach : Breaches p smp
      · simp [hbreach]
      · simp [hbreach]
    · rw [hstored, hpending, ← List.append_assoc]
      intro ev hev
      rcases List.mem_append.mp hev with hev | hev
      · exact h.warranted ev hev
      · exact hwarranted ev hev
    · rw [hstored, hahead, ← h.printed]
      exact printedIn_append.trans (List.append_nil _)
    · rw [hstored, hposting]
      exact (List.Perm.of_eq (by rw [show postedIn (log ++ [.added smp]) = postedIn log from
        postedIn_append.trans (List.append_nil _)])).trans h.posted
  · have hstored : storedIn (log ++ [.printed ev.marshal]) = storedIn log :=
      storedIn_append.trans (List.append_nil _)
    have hadded : addedIn (log ++ [.printed ev.marshal]) = addedIn log := addedIn_append.trans (List.append_nil _)
    have hposted : postedIn (log ++ [.printed ev.marshal]) = postedIn log :=
      postedIn_append.trans (List.append_nil _)
    have hprinted := h.printed
    have hfound := h.found
    have hwarranted := h.warranted
    rw [hphase] at hprinted hfound hwarranted
    refine ⟨hadded ▸ h.ring, hstored ▸ h.recent, ?_, ?_, ?_, ?_, hanswers⟩
    · rw [hstored, hadded]
      exact hfound
    · rw [hstored]
      exact hwarranted
    · rw [hstored, printedIn_append, hprinted, show Phase.ahead (.printing ev events) = [] from rfl,
        List.append_nil]
      rfl
    · rw [hposted, hstored]
      exact h.posted
  · obtain ⟨rfl, rfl⟩ : s' = (storeStep l3 s ev events).1 ∧ out = [.stored ev] := by
      rw [← hstore]
      exact ⟨rfl, congrArg Prod.snd hstore⟩
    have hstored : storedIn (log ++ [.stored ev]) = storedIn log ++ [ev] := storedIn_append
    have hadded : addedIn (log ++ [.stored ev]) = addedIn log := addedIn_append.trans (List.append_nil _)
    have hposted : postedIn (log ++ [.stored ev]) = postedIn log := postedIn_append.trans (List.append_nil _)
    have hprinted := h.printed
    have hfound := h.found
    have hwarranted := h.warranted
    rw [hphase] at hprinted hfound hwarranted
    refine ⟨hadded ▸ h.ring, ?_, ?_, ?_, ?_, ?_, hanswers⟩
    · have hlast : (storeStep l3 s ev events).1.recent = lastN recentCap (s.recent ++ [ev]) := by
        show (if recentCap < (s.recent ++ [ev]).length then _ else _) = _
        split
        · rfl
        · rename_i hle
          rw [lastN_of_length_le (not_lt.mp hle)]
      rw [hlast, h.recent, hstored, lastN_concat_lastN]
    · show (_ ++ (emitting events).pending).map _ = _
      rw [hstored, hadded, pending_emitting, List.append_assoc]
      exact hfound
    · show ∀ e ∈ _ ++ (emitting events).pending, _
      rw [hstored, pending_emitting, List.append_assoc]
      exact hwarranted
    · show _ = _ ++ (emitting events).ahead
      rw [hstored, ahead_emitting, List.append_nil, List.map_append]
      exact printedIn_append.trans ((List.append_nil _).trans hprinted)
    · show (_ ++ (if l3 then s.posting ++ [ev.marshal] else s.posting)).Perm _
      have hold := h.posted
      rw [hposted, hstored]
      cases l3 with
      | true =>
          rw [if_pos rfl] at hold ⊢
          rw [if_pos rfl, ← List.append_assoc, List.map_append]
          exact hold.append_right _
      | false => exact hold
  · have hstored : storedIn (log ++ [.posted body]) = storedIn log := storedIn_append.trans (List.append_nil _)
    have hadded : addedIn (log ++ [.posted body]) = addedIn log := addedIn_append.trans (List.append_nil _)
    have hposted : postedIn (log ++ [.posted body]) = postedIn log ++ [body] := postedIn_append
    refine ⟨hadded ▸ h.ring, hstored ▸ h.recent, ?_, ?_, ?_, ?_, hanswers⟩
    · rw [hstored, hadded]
      exact h.found
    · rw [hstored]
      exact h.warranted
    · rw [hstored, printedIn_append, h.printed]
      exact List.append_nil _
    · -- the post sent leaves the ones under way
      obtain ⟨hi, hget⟩ := List.getElem?_eq_some_iff.mp hbody
      have hperm : (body :: s.posting.eraseIdx i).Perm s.posting := hget ▸ List.getElem_cons_eraseIdx_perm hi
      rw [hposted, hstored, List.append_assoc]
      exact (hperm.append_left _).trans h.posted

theorem serving_run (acts : List Act) :
    Serving p l3 (serve parseFloat p l3 acts).1 (serve parseFloat p l3 acts).2 :=
  logged_inv .start (fun _ _ a h => h.step a) acts

/-- An element followed by fewer than `n` others is among the last `n`. -/
theorem mem_lastN {α : Type} {n : ℕ} {l l' : List α} {x : α} (h : l'.length < n) : x ∈ lastN n (l ++ x :: l') := by
  have hsplit : l ++ x :: l' = l ++ [x] ++ l' := by simp
  unfold lastN
  rw [List.drop_append_of_le_length (by simp; omega)]
  exact List.mem_append_right _ (List.mem_cons_self)

/-- What `/events` serves is what was stored. -/
theorem encodeAll_eq_some {l body : List Event} (h : encodeAll l = some body) : body = l := by
  unfold encodeAll at h
  induction l generalizing body with
  | nil => simpa using h.symm
  | cons ev l ih =>
      rw [List.mapM_cons] at h
      obtain ⟨ev', hev, hrest⟩ := Option.bind_eq_some_iff.mp h
      obtain ⟨body', hbody, hpure⟩ := Option.bind_eq_some_iff.mp hrest
      obtain rfl : ev' = ev := by
        unfold Event.marshal at hev
        split at hev
        · exact (Option.some.inj hev).symm
        · exact absurd hev (by simp)
      rw [← Option.some.inj hpure, ih hbody]

/-- Serving sorts the keys and keeps the series. -/
theorem Ring.get?_window (r : Ring) (k : String) : r.window.get? k = r.data.get? k := by
  ext l
  rw [Dict.get?_eq_some_iff, Dict.get?_eq_some_iff]
  exact mem_sortOn

/-- The sample of a number among those that satisfy `P`, with what comes before and after it. -/
theorem split_of_getElem?_filter {α : Type} {P : α → Bool} {l : List α} {j : ℕ} {x : α}
    (h : (l.filter P)[j]? = some x) : ∃ older newer, l = older ++ x :: newer ∧ P x ∧ older.countP P = j := by
  induction l generalizing j with
  | nil => exact absurd h (by simp)
  | cons a l ih =>
      by_cases ha : P a
      · rw [List.filter_cons_of_pos ha] at h
        cases j with
        | zero =>
            obtain rfl : a = x := by simpa using h
            exact ⟨[], l, rfl, ha, rfl⟩
        | succ j =>
            obtain ⟨older, newer, rfl, hx, hcount⟩ := ih h
            exact ⟨a :: older, newer, rfl, hx, by rw [List.countP_cons_of_pos ha, hcount]⟩
      · rw [List.filter_cons_of_neg ha] at h
        obtain ⟨older, newer, rfl, hx, hcount⟩ := ih h
        exact ⟨a :: older, newer, rfl, hx, by rw [List.countP_cons_of_neg ha, hcount]⟩

/-- **An event is never ahead of the ring**: a window served after an event still has the event's sample, the
    breaching one of its number, unless as many samples as it holds have joined the series since. -/
theorem sample_served (h : Serving p l3 s log) {before mid after : List Effect} {body : List Event} {w : Window}
    (hlog : log = before ++ .events (some body) :: (mid ++ .window w :: after)) {i : ℕ} {ev : Event}
    (hev : body[i]? = some ev) :
    ∃ smp older newer, addedIn (before ++ mid) = older ++ smp :: newer ∧ Breaches p smp ∧
      smp.source = ev.source ∧
      (older.countP fun x => Breaches p x) = (storedIn before).length - body.length + i ∧
      ((newer.countP fun x => x.key = smp.key) < (ringCap p).toNat → smp ∈ (w.get? smp.key).getD []) := by
  obtain ⟨hbody, horigin⟩ := h.answers before _ _ hlog
  have hw : w = ((Ring.empty (ringCap p).toNat).addAll
      (addedIn (before ++ .events (some body) :: mid))).window := by
    refine h.answers (before ++ .events (some body) :: mid) (.window w) after ?_
    rw [hlog, List.append_assoc, List.cons_append]
  have hsame : addedIn (before ++ .events (some body) :: mid) = addedIn (before ++ mid) := by
    rw [addedIn_append, addedIn_append]
    rfl
  have hstored : (storedIn before)[(storedIn before).length - body.length + i]? = some ev := by
    rw [encodeAll_eq_some hbody.symm] at hev ⊢
    unfold lastN at hev ⊢
    rw [List.getElem?_drop] at hev
    rw [List.length_drop, Nat.sub_sub_self (Nat.sub_le _ _)]
    exact hev
  obtain ⟨smp, hsmp, hsource⟩ := horigin _ ev hstored
  obtain ⟨older, newer, hsplit, hbreach, hcount⟩ := split_of_getElem?_filter hsmp
  refine ⟨smp, older, newer ++ addedIn mid, ?_, by simpa using hbreach, hsource, hcount, ?_⟩
  · rw [addedIn_append, hsplit, List.append_assoc, List.cons_append]
  · intro hcount
    have hadded : addedIn (before ++ mid) = older ++ smp :: (newer ++ addedIn mid) := by
      rw [addedIn_append, hsplit, List.append_assoc, List.cons_append]
    have hring := Ring.addAll_get? (Ring.empty (ringCap p).toNat) (addedIn (before ++ mid)) smp.key
    rw [hw, hsame, Ring.get?_window, hring, hadded, List.filter_append, List.filter_cons_of_pos (by simp)]
    refine List.append_assoc _ _ _ ▸ mem_lastN ?_
    rw [← List.countP_eq_length_filter]
    exact hcount

/-- **Every answer is a snapshot.** Over every interleaving of polling, requests and posts, whatever comes back
    for the queries: a window served is the ring of the samples added before it, and a list of events served is
    the end of the events stored before it; the events stored are the breaching samples in the order they were
    added, each of the schema and above the threshold of its signal; they are printed in that order, one ahead at
    most, and none is posted more often than stored; and a window served after an event has the event's own sample
    (the breaching one of the event's number among all that were stored), unless as many samples as the series holds
    have joined it since. -/
theorem answers_snapshot (parseFloat : String → Option Float64) (p : Pack) (l3 : Bool) (acts : List Act) :
    let log := (serve parseFloat p l3 acts).2
    (∀ before w after, log = before ++ .window w :: after →
      w = ((Ring.empty (ringCap p).toNat).addAll (addedIn before)).window) ∧
    (∀ before body after, log = before ++ .events body :: after →
      body = encodeAll (lastN recentCap (storedIn before))) ∧
    ((storedIn log).map Event.source <+: ((addedIn log).filter fun smp => Breaches p smp).map Sample.source ∧
      ∀ ev ∈ storedIn log, ev.Warranted p) ∧
    ((storedIn log).map Event.marshal <+: printedIn log ∧ (printedIn log).length ≤ (storedIn log).length + 1) ∧
    (postedIn log).Subperm (if l3 then (storedIn log).map Event.marshal else []) ∧
    (∀ before body mid w after, log = before ++ .events (some body) :: (mid ++ .window w :: after) →
      ∀ i ev, body[i]? = some ev → ∃ smp older newer, addedIn (before ++ mid) = older ++ smp :: newer ∧
        Breaches p smp ∧ smp.source = ev.source ∧
        (older.countP fun x => Breaches p x) = (storedIn before).length - body.length + i ∧
        ((newer.countP fun x => x.key = smp.key) < (ringCap p).toNat → smp ∈ (w.get? smp.key).getD [])) := by
  intro log
  have h : Serving p l3 (serve parseFloat p l3 acts).1 log := serving_run acts
  refine ⟨?_, ?_, ⟨?_, ?_⟩, ⟨?_, ?_⟩, ?_, ?_⟩
  · intro before w after hlog
    exact h.answers before (.window w) after hlog
  · intro before body after hlog
    exact (h.answers before (.events body) after hlog).1
  · rw [← h.found, List.map_append]
    exact List.prefix_append _ _
  · intro ev hev
    exact h.warranted ev (List.mem_append_left _ hev)
  · rw [h.printed]
    exact List.prefix_append _ _
  · have hahead : ∀ phase : Phase, phase.ahead.length ≤ 1 := by
      intro phase
      cases phase <;> simp [Phase.ahead]
    rw [h.printed, List.length_append, List.length_map]
    exact Nat.add_le_add_left (hahead _) _
  · exact (List.sublist_append_left _ _).subperm.trans h.posted.subperm
  · intro before body mid w after hlog i ev hev
    exact sample_served h hlog hev

end Run

/-! ## A poll among requests -/

section Poll
variable (parseFloat : String → Option Float64) (p : Pack) (l3 : Bool) (poll : Poll)

/-- The act gives the polling goroutine the answer and the clock of `poll`, and is no further tick. -/
def Obeys (s : Server) : Act → Prop
  | .tick => False
  | .answer reply => ∀ sig signals events, s.phase = .asking sig signals events →
      reply = poll.reply sig ((p.queries.get? sig).getD "")
  | .add clock => ∀ sig smp samples signals events, s.phase = .adding sig smp samples signals events →
      clock = poll.clock events.length
  | _ => True

def Follows (s : Server) : List Act → Prop
  | [] => True
  | a :: acts => Obeys p poll s a ∧ Follows (serverStep parseFloat p l3 s a).1 acts

/-- What the rest of the poll will have made of the ring, and of the events stored so far. -/
def Phase.finish (ring : Ring) (stored : List Event) : Phase → Polled
  | .asking sig signals events =>
      let out := (sig :: signals).foldl (evalSignal parseFloat p poll) ⟨ring, events⟩
      ⟨out.ring, stored ++ out.events⟩
  | .adding sig smp samples signals events =>
      let cur := (smp :: samples).foldl (evalSample p poll sig) ⟨ring, events⟩
      let out := signals.foldl (evalSignal parseFloat p poll) cur
      ⟨out.ring, stored ++ out.events⟩
  | phase => ⟨ring, stored ++ phase.pending⟩

variable {parseFloat p l3 poll} {s : Server} {a : Act} {ring : Ring} {stored : List Event}

theorem finish_emitting (events : List Event) :
    (emitting events).finish parseFloat p poll ring stored = ⟨ring, stored ++ events⟩ := by
  cases events <;> rfl

theorem finish_nextSignal (signals : List Signal) (events : List Event) :
    (nextSignal signals events).finish parseFloat p poll ring stored
      = ⟨(signals.foldl (evalSignal parseFloat p poll) ⟨ring, events⟩).ring,
          stored ++ (signals.foldl (evalSignal parseFloat p poll) ⟨ring, events⟩).events⟩ := by
  cases signals with
  | nil => exact finish_emitting events
  | cons => rfl

theorem finish_nextSample (sig : Signal) (samples : List Sample) (signals : List Signal) (events : List Event) :
    (nextSample sig samples signals events).finish parseFloat p poll ring stored
      = (nextSignal signals (samples.foldl (evalSample p poll sig) ⟨ring, events⟩).events).finish parseFloat p poll
          (samples.foldl (evalSample p poll sig) ⟨ring, events⟩).ring stored := by
  rw [finish_nextSignal]
  cases samples with
  | nil => exact finish_nextSignal signals events
  | cons => rfl

/-- A failed query leaves the poll as it is. -/
theorem evalSignal_error {sig : Signal} {err : String} (cur : Polled)
    (h : promQuery parseFloat (poll.reply sig ((p.queries.get? sig).getD "")) = .error err) :
    evalSignal parseFloat p poll cur sig = cur := by
  unfold evalSignal
  rw [h]

theorem evalSignal_ok {sig : Signal} {samples : List Sample} (cur : Polled)
    (h : promQuery parseFloat (poll.reply sig ((p.queries.get? sig).getD "")) = .ok samples) :
    evalSignal parseFloat p poll cur sig = samples.foldl (evalSample p poll sig) cur := by
  unfold evalSignal
  rw [h]

/-- **An act leaves the outcome of the poll**, whether it is part of it or falls in between. -/
theorem finish_step (hobeys : Obeys p poll s a) :
    (serverStep parseFloat p l3 s a).1.phase.finish parseFloat p poll (serverStep parseFloat p l3 s a).1.ring
        (stored ++ storedIn (serverStep parseFloat p l3 s a).2)
      = s.phase.finish parseFloat p poll s.ring stored := by
  have hquiet : stored ++ storedIn [] = stored := List.append_nil _
  unfold serverStep
  by_cases hdown : s.down
  · rw [if_pos hdown, hquiet]
  · rw [if_neg hdown]
    cases a with
    | tick => exact absurd hobeys id
    | answer reply =>
        cases hphase : s.phase with
        | asking sig signals events =>
            have hreply := hobeys sig signals events hphase
            subst hreply
            show _ = (⟨_, _⟩ : Polled)
            rw [List.foldl_cons]
            cases hquery : promQuery parseFloat (poll.reply sig ((p.queries.get? sig).getD "")) with
            | error e =>
                rw [evalSignal_error _ hquery]
                dsimp only
                rw [hquery, hquiet]
                exact finish_nextSignal signals events
            | ok samples =>
                rw [evalSignal_ok _ hquery]
                dsimp only
                rw [hquery, hquiet]
                exact (finish_nextSample sig samples signals events).trans (finish_nextSignal signals _)
        | _ => rw [hquiet]; rw [hphase]
    | add clock =>
        cases hphase : s.phase with
        | adding sig smp samples signals events =>
            have hclock := hobeys sig smp samples signals events hphase
            dsimp only
            unfold addStep
            have hfirst : ∀ cur, (nextSample sig samples signals cur.events).finish parseFloat p poll cur.ring stored
                = ⟨(signals.foldl (evalSignal parseFloat p poll) (samples.foldl (evalSample p poll sig) cur)).ring,
                    stored ++ (signals.foldl (evalSignal parseFloat p poll)
                      (samples.foldl (evalSample p poll sig) cur)).events⟩ :=
              fun cur => (finish_nextSample sig samples signals cur.events).trans (finish_nextSignal signals _)
            show _ = (⟨_, _⟩ : Polled)
            rw [List.foldl_cons]
            split
            · rename_i hpod
              rw [hquiet, show evalSample p poll sig ⟨s.ring, events⟩ smp = ⟨s.ring, events⟩ from if_pos hpod]
              exact hfirst ⟨s.ring, events⟩
            · rename_i hpod
              split
              · show Phase.finish _ _ _ _ _ s.phase = _
                rw [hphase]
                exact congrArg (fun st => (⟨_, st ++ _⟩ : Polled)) (List.append_nil stored)
              · have hrecord : evalSample p poll sig ⟨s.ring, events⟩ smp
                    = record p (clockAt clock) ⟨s.ring, events⟩ { smp with sig := sig } := by
                  unfold evalSample
                  rw [if_neg hpod, hclock]
                  rfl
                rw [hrecord]
                exact (congrArg (fun st => Phase.finish _ _ _ _ st _) (List.append_nil stored)).trans (hfirst _)
        | _ => rw [hquiet]; rw [hphase]
    | print =>
        cases hphase : s.phase with
        | printing ev events => exact congrArg (fun st => (⟨_, st ++ _⟩ : Polled)) (List.append_nil stored)
        | _ => rw [hquiet]; rw [hphase]
    | store =>
        cases hphase : s.phase with
        | storing ev events =>
            refine (finish_emitting events).trans ?_
            show (⟨_, (stored ++ [ev]) ++ events⟩ : Polled) = ⟨_, stored ++ (ev :: events)⟩
            rw [List.append_assoc]
            rfl
        | _ => rw [hquiet]; rw [hphase]
    | post i =>
        dsimp only
        split
        · exact congrArg (fun st => Phase.finish _ _ _ _ st _) (List.append_nil stored)
        · rw [hquiet]
    | getWindow => exact congrArg (fun st => Phase.finish _ _ _ _ st _) (List.append_nil stored)
    | getEvents => exact congrArg (fun st => Phase.finish _ _ _ _ st _) (List.append_nil stored)

theorem finish_run (s : Server) (acts : List Act) (h : Follows parseFloat p l3 poll s acts) (stored : List Event) :
    let out := logged (serverStep parseFloat p l3) s acts
    out.1.phase.finish parseFloat p poll out.1.ring (stored ++ storedIn out.2)
      = s.phase.finish parseFloat p poll s.ring stored := by
  intro out
  induction acts generalizing s stored with
  | nil => exact congrArg (fun st => Phase.finish _ _ _ _ st _) (List.append_nil stored)
  | cons a acts ih =>
      obtain ⟨hobeys, hrest⟩ := h
      have hout : out = _ := logged_cons a acts
      rw [hout, storedIn_append, ← List.append_assoc]
      exact (ih _ hrest _).trans (finish_step hobeys)

/-- **A poll is atomic**: whatever falls between its acts, when the goroutine waits again the ring and the events
    stored are those of the poll run on its own. -/
theorem poll_alone (hidle : s.phase = .idle) (hup : s.down = false) {acts : List Act}
    (h : Follows parseFloat p l3 poll (serverStep parseFloat p l3 s .tick).1 acts)
    (hover : (logged (serverStep parseFloat p l3) (serverStep parseFloat p l3 s .tick).1 acts).1.phase = .idle) :
    let out := logged (serverStep parseFloat p l3) (serverStep parseFloat p l3 s .tick).1 acts
    (⟨out.1.ring, storedIn out.2⟩ : Polled) = evalEvents parseFloat p poll s.ring := by
  intro out
  have htick : (serverStep parseFloat p l3 s .tick).1 = { s with phase := nextSignal p.order [] } := by
    unfold serverStep
    rw [hup, hidle]
    rfl
  calc (⟨out.1.ring, storedIn out.2⟩ : Polled)
      = out.1.phase.finish parseFloat p poll out.1.ring ([] ++ storedIn out.2) := by
        rw [show out.1.phase = .idle from hover]
        exact congrArg (fun st => (⟨_, st⟩ : Polled)) (List.append_nil _).symm
    _ = _ := finish_run _ acts h []
    _ = (nextSignal p.order []).finish parseFloat p poll s.ring [] := by rw [htick]
    _ = evalEvents parseFloat p poll s.ring := by
        rw [finish_nextSignal]
        rfl

end Poll

/-- Rounds of the process: each starts with a tick, follows its poll and ends before the next tick. -/
def Rounds (parseFloat : String → Option Float64) (p : Pack) (l3 : Bool) (s : Server) :
    List (Poll × List Act) → Prop
  | [] => True
  | (poll, acts) :: rounds =>
      let s' := (serverStep parseFloat p l3 s .tick).1
      let out := (logged (serverStep parseFloat p l3) s' acts).1
      s.down = false ∧ Follows parseFloat p l3 poll s' acts ∧ out.phase = .idle ∧ Rounds parseFloat p l3 out rounds

/-- The acts of the rounds, ticks included. -/
def actsOf (rounds : List (Poll × List Act)) : List Act := rounds.flatMap fun round => .tick :: round.2

section Rounds
variable {parseFloat : String → Option Float64} {p : Pack} {l3 : Bool}

/-- A poll after others: its events follow theirs. -/
def pollNext (parseFloat : String → Option Float64) (p : Pack) (cur : Polled) (poll : Poll) : Polled :=
  let out := evalEvents parseFloat p poll cur.ring
  ⟨out.ring, cur.events ++ out.events⟩

theorem rounds_run (s : Server) (stored : List Event) (hidle : s.phase = .idle) (rounds : List (Poll × List Act))
    (h : Rounds parseFloat p l3 s rounds) :
    let out := logged (serverStep parseFloat p l3) s (actsOf rounds)
    (⟨out.1.ring, stored ++ storedIn out.2⟩ : Polled)
      = (rounds.map Prod.fst).foldl (pollNext parseFloat p) ⟨s.ring, stored⟩ := by
  induction rounds generalizing s stored with
  | nil => exact congrArg (fun st => (⟨_, st⟩ : Polled)) (List.append_nil _)
  | cons round rounds ih =>
      obtain ⟨poll, acts⟩ := round
      obtain ⟨hup, hfollows, hover, hrest⟩ := h
      have hpoll := poll_alone hidle hup hfollows hover
      set s' := (serverStep parseFloat p l3 s .tick).1 with hs'
      have hquiet : storedIn (serverStep parseFloat p l3 s .tick).2 = [] := by
        unfold serverStep
        rw [hup, hidle]
        rfl
      have hstored : storedIn (logged (serverStep parseFloat p l3) s (.tick :: acts)).2
          = storedIn (logged (serverStep parseFloat p l3) s' acts).2 := by
        rw [logged_cons, storedIn_append, hquiet, List.nil_append]
      have hstate : (logged (serverStep parseFloat p l3) s (.tick :: acts)).1
          = (logged (serverStep parseFloat p l3) s' acts).1 := by rw [logged_cons]
      have hacts : actsOf ((poll, acts) :: rounds) = (.tick :: acts) ++ actsOf rounds := rfl
      have hrounds := ih _ (stored ++ storedIn (logged (serverStep parseFloat p l3) s' acts).2) hover hrest
      dsimp only at hpoll hrounds ⊢
      rw [hacts, logged_append, storedIn_append, hstored, hstate, ← List.append_assoc, hrounds, List.map_cons,
        List.foldl_cons]
      unfold pollNext
      rw [← hpoll]

/-- **The process is its polls, one after the other**: whatever requests and posts fall between their acts. -/
theorem rounds_serial (parseFloat : String → Option Float64) (p : Pack) (l3 : Bool)
    (rounds : List (Poll × List Act)) (h : Rounds parseFloat p l3 (.start p) rounds) :
    let out := serve parseFloat p l3 (actsOf rounds)
    out.1.ring = ringAfter parseFloat p (ringCap p).toNat (rounds.map Prod.fst) ∧
      storedIn out.2 = ((rounds.map Prod.fst).foldl (pollNext parseFloat p) ⟨.empty (ringCap p).toNat, []⟩).events := by
  intro out
  have hrun := rounds_run (.start p) [] rfl rounds h
  have hring : ∀ (polls : List Poll) (cur : Polled), (polls.foldl (pollNext parseFloat p) cur).ring
      = polls.foldl (fun ring poll => (evalEvents parseFloat p poll ring).ring) cur.ring := by
    intro polls
    induction polls with
    | nil => exact fun _ => rfl
    | cons poll polls ih => exact fun cur => ih (pollNext parseFloat p cur poll)
  constructor
  · exact (congrArg Polled.ring hrun).trans (hring _ _)
  · exact congrArg Polled.events hrun

end Rounds

/-- One poll of the storm, with a request for the events before any is stored and one for the window after. -/
def stormRounds : List (Poll × List Act) :=
  let poll := stormPoll "0.94"
  [(poll, [.answer (poll.reply "psi_io" "psi"), .add (poll.clock 0), .getEvents, .add (poll.clock 1),
    .answer (poll.reply "mem" "mem"), .print, .getWindow, .store])]

theorem stormRounds_rounds : Rounds stormFloat stormPack true (.start stormPack) stormRounds := by
  refine ⟨rfl, ⟨?_, ?_, trivial, ?_, ?_, trivial, trivial, trivial, trivial⟩, ?_, trivial⟩
  · rintro sig signals events ⟨⟩
    rfl
  · rintro sig smp samples signals events ⟨⟩
    rfl
  · rintro sig smp samples signals events ⟨⟩
    rfl
  · rintro sig signals events ⟨⟩
    rfl
  · decide +kernel

theorem rounds_serial_storm :
    let out := serve stormFloat stormPack true (actsOf stormRounds)
    out.1.ring = ringAfter stormFloat stormPack 180 [stormPoll "0.94"] ∧ storedIn out.2 ≠ [] := by
  obtain ⟨hring, hstored⟩ := rounds_serial stormFloat stormPack true stormRounds stormRounds_rounds
  refine ⟨hring, ?_⟩
  rw [hstored]
  decide +kernel

end EdgeCausal.Api
