import EdgeCausal.Factory.Ingest

/-!
# `Correctness.IngestLoss` — every message is accounted for

Over any run of the ingest service, through failing databases and restarts, each message that came is in one place:
refused as no text, or, as a row, among the readings, in the writer's hand, in the queue, dropped from a full queue, or
lost with a batch that failed or a process that was killed; none is stored twice, and none out of order
(`ingest_accounted`).
-/

namespace EdgeCausal.Factory

open Lib
open scoped List

/-! ## The log -/

def IngestEffect.arrived : IngestEffect → List Row
  | .queued row => [row]
  | .dropped row _ => [row]
  | _ => []

/-- The rows that will not be stored. -/
def IngestEffect.missing : IngestEffect → List Row
  | .dropped row _ => [row]
  | .lost batch => batch
  | .killed rows => rows
  | _ => []

/-- The rows that were stored and not counted. -/
def IngestEffect.unseen : IngestEffect → ℕ
  | .uncounted n => n
  | _ => 0

/-- The messages that raised. -/
def IngestEffect.refused : IngestEffect → List Message
  | .raised msg => [msg]
  | _ => []

/-- The messages that came, in order. -/
def messagesOf (events : List IngestEvent) : List Message :=
  events.filterMap fun
    | .message msg => some msg
    | _ => none

def refusedIn (log : List IngestEffect) : List Message := log.flatMap IngestEffect.refused

/-- The rows that came, in order. -/
def arrivedIn (log : List IngestEffect) : List Row := log.flatMap IngestEffect.arrived

def missingIn (log : List IngestEffect) : List Row := log.flatMap IngestEffect.missing

def unseenIn (log : List IngestEffect) : ℕ := (log.map IngestEffect.unseen).sum

section Log
variable {log out : List IngestEffect}

theorem arrivedIn_append : arrivedIn (log ++ out) = arrivedIn log ++ out.flatMap IngestEffect.arrived :=
  List.flatMap_append

theorem missingIn_append : missingIn (log ++ out) = missingIn log ++ out.flatMap IngestEffect.missing :=
  List.flatMap_append

theorem unseenIn_append : unseenIn (log ++ out) = unseenIn log + (out.map IngestEffect.unseen).sum := by
  unfold unseenIn
  rw [List.map_append, List.sum_append]

end Log

/-- The rows that are stored, in hand or waiting, in that order. -/
def Ingest.kept (s : Ingest) : List Row := s.readings ++ s.writer.pending ++ s.queue

/-- What holds at any moment. -/
structure Held (s : Ingest) (log : List IngestEffect) : Prop where
  queue : s.queue.length ≤ maxsize
  batch : s.writer.pending.length ≤ batchSize
  ordered : s.kept.Sublist (arrivedIn log)
  placed : (s.kept ++ missingIn log).Perm (arrivedIn log)
  counted : s.readings.length = s.rowsTotal + s.writer.uncounted + unseenIn log
  full : ∀ row n, .dropped row n ∈ log → n = maxsize
  failed : ∀ batch, .lost batch ∈ log → batch.length ≤ batchSize

/-! ## One step -/

/-- What a step can do: a message raises, is queued or dropped; rows move on without being stored, missing or counted;
    a batch is lost; a batch is stored, and counted later or not at all; a batch is counted; the process starts anew. -/
inductive Moves (s : Ingest) : Ingest → List IngestEffect → Prop
  | raised (msg : Message) : Moves s s [.raised msg]
  | queued (row : Row) (h : s.queue.length < maxsize) : Moves s { s with queue := s.queue ++ [row] } [.queued row]
  | dropped (row : Row) (h : maxsize ≤ s.queue.length) : Moves s s [.dropped row s.queue.length]
  | moved {s' : Ingest} (hkept : s'.kept = s.kept) (hreadings : s'.readings = s.readings)
      (hqueue : s'.queue.length ≤ s.queue.length)
      (hbatch : s'.writer.pending.length ≤ max s.writer.pending.length batchSize)
      (hcounted : s'.rowsTotal + s'.writer.uncounted = s.rowsTotal + s.writer.uncounted) : Moves s s' []
  | lost {batch : List Row} (h : s.writer.pending = batch) (hcounted : s.writer.uncounted = 0) :
      Moves s { s with writer := .connecting } [.lost batch]
  | stored {batch : List Row} (h : s.writer.pending = batch) (hcounted : s.writer.uncounted = 0) :
      Moves s { s with readings := s.readings ++ batch, writer := .counting batch } [.stored batch]
  | unknown {batch : List Row} (h : s.writer.pending = batch) (hcounted : s.writer.uncounted = 0) :
      Moves s { s with readings := s.readings ++ batch, writer := .connecting }
        [.stored batch, .uncounted batch.length]
  | restarted : Moves s (.start s.readings)
      [.killed (s.writer.pending ++ s.queue), .uncounted (s.rowsTotal + s.writer.uncounted)]

theorem fillStep_moves {s : Ingest} {batch : List Row} (h : s.writer = .filling batch) (inTime : Bool) :
    Moves s (fillStep s batch inTime) [] := by
  have hinsert : Moves s { s with writer := .inserting batch } [] := by
    refine .moved ?_ rfl le_rfl ?_ ?_
    · simp [Ingest.kept, h, Writer.pending]
    · simp [h, Writer.pending]
    · simp [h, Writer.uncounted]
  unfold fillStep
  split
  · rename_i hroom
    split
    · exact hinsert
    · rename_i row queue hqueue
      refine .moved ?_ rfl ?_ ?_ ?_
      · simp [Ingest.kept, h, hqueue, Writer.pending]
      · simp [hqueue]
      · simp only [Writer.pending, List.length_append, List.length_singleton]
        exact le_max_of_le_right hroom.1
      · simp [h, Writer.uncounted]
  · exact hinsert

theorem commitStep_moves {s : Ingest} {batch : List Row} (h : s.writer = .committing batch) (c : Commit) :
    Moves s (commitStep s batch c).1 (commitStep s batch c).2 := by
  have hpending : s.writer.pending = batch := by rw [h]; rfl
  have huncounted : s.writer.uncounted = 0 := by rw [h]; rfl
  cases c with
  | done => exact .stored hpending huncounted
  | failed => exact .lost hpending huncounted
  | unknown => exact .unknown hpending huncounted

theorem moves_refl (s : Ingest) : Moves s s [] := .moved rfl rfl le_rfl (le_max_left _ _) rfl

theorem ingestStep_moves (s : Ingest) (ev : IngestEvent) : Moves s (ingestStep s ev).1 (ingestStep s ev).2 := by
  unfold ingestStep
  split
  · rename_i msg
    unfold onMsg
    split
    · exact .raised msg
    · rename_i row _
      split
      · exact .queued row ‹_›
      · exact .dropped row (not_lt.mp ‹_›)
  · rename_i ok hw
    refine .moved ?_ rfl le_rfl ?_ ?_
    · cases ok <;> simp [Ingest.kept, hw, Writer.pending]
    · cases ok <;> simp [Writer.pending]
    · cases ok <;> simp [hw, Writer.uncounted]
  · rename_i hw
    split
    · exact moves_refl s
    · rename_i row queue hqueue
      refine .moved ?_ rfl ?_ ?_ ?_
      · simp [Ingest.kept, hw, hqueue, Writer.pending]
      · simp [hqueue]
      · simp [Writer.pending, batchSize]
      · simp [hw, Writer.uncounted]
  · rename_i inTime batch hw
    exact fillStep_moves hw inTime
  · rename_i ok batch hw
    split
    · refine .moved ?_ rfl le_rfl ?_ ?_
      · simp [Ingest.kept, hw, Writer.pending]
      · simp [hw, Writer.pending]
      · simp [hw, Writer.uncounted]
    · exact .lost (by rw [hw]; rfl) (by rw [hw]; rfl)
  · rename_i c batch hw
    exact commitStep_moves hw c
  · rename_i batch hw
    refine .moved ?_ rfl le_rfl ?_ ?_
    · simp [Ingest.kept, hw, Writer.pending]
    · simp [Writer.pending]
    · simp [hw, Writer.uncounted]
  · rename_i hw
    refine .moved ?_ rfl le_rfl ?_ ?_
    · simp [Ingest.kept, hw, Writer.pending]
    · simp [Writer.pending]
    · simp [hw, Writer.uncounted]
  · exact .restarted
  · exact moves_refl s

/-! ## Runs -/

section Run
variable {s s' : Ingest} {log out : List IngestEffect}

theorem Held.start : Held (.start []) [] := by
  refine ⟨Nat.zero_le _, Nat.zero_le _, List.Sublist.refl _, List.Perm.refl _, rfl, ?_, ?_⟩
  · intro row n h
    exact absurd h (by simp)
  · intro batch h
    exact absurd h (by simp)

/-- A message that raises is in no place. -/
theorem Held.raised (h : Held s log) (msg : Message) : Held s (log ++ [.raised msg]) := by
  have harrived : arrivedIn (log ++ [.raised msg]) = arrivedIn log := arrivedIn_append.trans (List.append_nil _)
  have hmissing : missingIn (log ++ [.raised msg]) = missingIn log := missingIn_append.trans (List.append_nil _)
  refine ⟨h.queue, h.batch, ?_, ?_, ?_, ?_, ?_⟩
  · rw [harrived]
    exact h.ordered
  · rw [harrived, hmissing]
    exact h.placed
  · rw [unseenIn_append]
    exact h.counted
  · simpa using h.full
  · simpa using h.failed

theorem Held.queued (h : Held s log) (row : Row) (hroom : s.queue.length < maxsize) :
    Held { s with queue := s.queue ++ [row] } (log ++ [.queued row]) := by
  have harrived : arrivedIn (log ++ [.queued row]) = arrivedIn log ++ [row] := arrivedIn_append
  have hmissing : missingIn (log ++ [.queued row]) = missingIn log := missingIn_append.trans (List.append_nil _)
  have hkept : ({ s with queue := s.queue ++ [row] } : Ingest).kept = s.kept ++ [row] := by
    simp [Ingest.kept]
  refine ⟨?_, h.batch, ?_, ?_, ?_, ?_, ?_⟩
  · rw [List.length_append]
    exact hroom
  · rw [hkept, harrived]
    exact h.ordered.append (List.Sublist.refl _)
  · rw [hkept, harrived, hmissing]
    calc s.kept ++ [row] ++ missingIn log
        _ = s.kept ++ ([row] ++ missingIn log) := List.append_assoc _ _ _
        _ ~ s.kept ++ (missingIn log ++ [row]) := List.perm_append_comm.append_left _
        _ = s.kept ++ missingIn log ++ [row] := (List.append_assoc _ _ _).symm
        _ ~ arrivedIn log ++ [row] := h.placed.append_right _
  · rw [unseenIn_append]
    exact h.counted
  · simpa using h.full
  · simpa using h.failed

theorem Held.dropped (h : Held s log) (row : Row) (hfull : maxsize ≤ s.queue.length) :
    Held s (log ++ [.dropped row s.queue.length]) := by
  have harrived : arrivedIn (log ++ [.dropped row s.queue.length]) = arrivedIn log ++ [row] := arrivedIn_append
  have hmissing : missingIn (log ++ [.dropped row s.queue.length]) = missingIn log ++ [row] := missingIn_append
  refine ⟨h.queue, h.batch, ?_, ?_, ?_, ?_, ?_⟩
  · rw [harrived]
    exact h.ordered.trans (List.sublist_append_left _ _)
  · rw [harrived, hmissing, ← List.append_assoc]
    exact h.placed.append_right _
  · rw [unseenIn_append]
    exact h.counted
  · intro row' n hmem
    rcases List.mem_append.mp hmem with hmem | hmem
    · exact h.full row' n hmem
    · obtain ⟨-, rfl⟩ : row' = row ∧ n = s.queue.length := by simpa using hmem
      exact le_antisymm h.queue hfull
  · simpa using h.failed

theorem Held.moved (h : Held s log) (hkept : s'.kept = s.kept) (hreadings : s'.readings = s.readings)
    (hqueue : s'.queue.length ≤ s.queue.length)
    (hbatch : s'.writer.pending.length ≤ max s.writer.pending.length batchSize)
    (hcounted : s'.rowsTotal + s'.writer.uncounted = s.rowsTotal + s.writer.uncounted) : Held s' log := by
  refine ⟨hqueue.trans h.queue, hbatch.trans (max_le h.batch le_rfl), ?_, ?_, ?_, h.full, h.failed⟩
  · rw [hkept]
    exact h.ordered
  · rw [hkept]
    exact h.placed
  · rw [hreadings, hcounted]
    exact h.counted

/-- **A batch ends**: its rows go to the readings or are missing, the writer has none in hand. -/
theorem Held.ended (h : Held s log) (hqueue : s'.queue = s.queue) (hpending : s'.writer.pending = [])
    (harrived : out.flatMap IngestEffect.arrived = [])
    (hrows : (s'.readings = s.readings ++ s.writer.pending ∧ out.flatMap IngestEffect.missing = []) ∨
      (s'.readings = s.readings ∧ out.flatMap IngestEffect.missing = s.writer.pending))
    (hcounted : s'.readings.length = s'.rowsTotal + s'.writer.uncounted + unseenIn (log ++ out))
    (hfull : ∀ row n, .dropped row n ∉ out) (hfailed : ∀ batch, .lost batch ∈ out → batch = s.writer.pending) :
    Held s' (log ++ out) := by
  have hsame : arrivedIn (log ++ out) = arrivedIn log := by
    rw [arrivedIn_append, harrived, List.append_nil]
  have hkept : s'.kept = s'.readings ++ s.queue := by
    unfold Ingest.kept
    rw [hpending, hqueue, List.append_nil]
  refine ⟨hqueue ▸ h.queue, hpending ▸ Nat.zero_le _, ?_, ?_, hcounted, ?_, ?_⟩
  · rw [hsame, hkept]
    rcases hrows with ⟨hreadings, -⟩ | ⟨hreadings, -⟩
    · rw [hreadings]
      exact h.ordered
    · rw [hreadings]
      refine List.Sublist.trans ?_ h.ordered
      exact (List.sublist_append_left _ _).append (List.Sublist.refl _)
  · rw [hsame, hkept, missingIn_append]
    rcases hrows with ⟨hreadings, hmissing⟩ | ⟨hreadings, hmissing⟩
    · rw [hreadings, hmissing, List.append_nil]
      exact h.placed
    · rw [hreadings, hmissing]
      refine List.Perm.trans ?_ h.placed
      unfold Ingest.kept
      calc s.readings ++ s.queue ++ (missingIn log ++ s.writer.pending)
          _ = s.readings ++ (s.queue ++ missingIn log ++ s.writer.pending) := by simp
          _ ~ s.readings ++ (s.writer.pending ++ (s.queue ++ missingIn log)) := List.perm_append_comm.append_left _
          _ = s.readings ++ s.writer.pending ++ s.queue ++ missingIn log := by simp
  · intro row n hmem
    rcases List.mem_append.mp hmem with hmem | hmem
    · exact h.full row n hmem
    · exact absurd hmem (hfull row n)
  · intro batch hmem
    rcases List.mem_append.mp hmem with hmem | hmem
    · exact h.failed batch hmem
    · rw [hfailed batch hmem]
      exact h.batch

theorem Held.restarted (h : Held s log) :
    Held (.start s.readings)
      (log ++ [.killed (s.writer.pending ++ s.queue), .uncounted (s.rowsTotal + s.writer.uncounted)]) := by
  set out : List IngestEffect :=
    [.killed (s.writer.pending ++ s.queue), .uncounted (s.rowsTotal + s.writer.uncounted)] with hout
  have harrived : arrivedIn (log ++ out) = arrivedIn log := arrivedIn_append.trans (List.append_nil _)
  have hmissing : missingIn (log ++ out) = missingIn log ++ (s.writer.pending ++ s.queue) := by
    rw [missingIn_append]
    simp [hout, IngestEffect.missing]
  have hkept : (Ingest.start s.readings).kept = s.readings := by simp [Ingest.kept, Ingest.start, Writer.pending]
  refine ⟨Nat.zero_le _, Nat.zero_le _, ?_, ?_, ?_, ?_, ?_⟩
  · rw [harrived, hkept]
    refine List.Sublist.trans ?_ h.ordered
    unfold Ingest.kept
    rw [List.append_assoc]
    exact List.sublist_append_left _ _
  · rw [harrived, hkept, hmissing]
    refine List.Perm.trans ?_ h.placed
    unfold Ingest.kept
    rw [List.append_assoc s.readings, List.append_assoc s.readings]
    exact List.perm_append_comm.append_left _
  · have hcounted := h.counted
    show s.readings.length = 0 + 0 + unseenIn (log ++ out)
    rw [unseenIn_append]
    simp only [hout, List.map_cons, List.map_nil, List.sum_cons, List.sum_nil, IngestEffect.unseen]
    omega
  · intro row n hmem
    exact h.full row n (by simpa [hout] using hmem)
  · intro batch hmem
    exact h.failed batch (by simpa [hout] using hmem)

/-- **A step keeps the account.** -/
theorem Held.step (h : Held s log) (hmoves : Moves s s' out) : Held s' (log ++ out) := by
  cases hmoves with
  | raised msg => exact h.raised msg
  | queued row hroom => exact h.queued row hroom
  | dropped row hfull => exact h.dropped row hfull
  | moved hkept hreadings hqueue hbatch hcounted =>
      rw [List.append_nil]
      exact h.moved hkept hreadings hqueue hbatch hcounted
  | @lost batch hpending huncounted =>
      have hcounted := h.counted
      refine h.ended rfl rfl rfl (Or.inr ⟨rfl, ?_⟩) ?_ (by simp) ?_
      · simp [IngestEffect.missing, hpending]
      · rw [unseenIn_append]
        simp only [Writer.uncounted, List.map_cons, List.map_nil, List.sum_cons, List.sum_nil, IngestEffect.unseen]
        omega
      · intro b hb
        obtain rfl : b = batch := by simpa using hb
        exact hpending.symm
  | @stored batch hpending huncounted =>
      have hcounted := h.counted
      refine h.ended rfl rfl rfl (Or.inl ⟨?_, rfl⟩) ?_ (by simp) (by simp)
      · rw [hpending]
      · rw [unseenIn_append, List.length_append]
        simp only [Writer.uncounted, List.map_cons, List.map_nil, List.sum_cons, List.sum_nil, IngestEffect.unseen]
        omega
  | @unknown batch hpending huncounted =>
      have hcounted := h.counted
      refine h.ended rfl rfl rfl (Or.inl ⟨?_, rfl⟩) ?_ (by simp) (by simp)
      · rw [hpending]
      · rw [unseenIn_append, List.length_append]
        simp only [Writer.uncounted, List.map_cons, List.map_nil, List.sum_cons, List.sum_nil, IngestEffect.unseen]
        omega
  | restarted => exact h.restarted

theorem held_run (events : List IngestEvent) : Held (ingest events).1 (ingest events).2 :=
  logged_inv .start (fun s _ ev h => h.step (ingestStep_moves s ev)) events

/-- **A step takes in** what came: a message that is text as a row, any other not at all. -/
theorem ingestStep_arrived (s : Ingest) (ev : IngestEvent) :
    arrivedIn (ingestStep s ev).2 = (messagesOf [ev]).filterMap Message.row? ∧
      refusedIn (ingestStep s ev).2 = (messagesOf [ev]).filter fun msg => msg.row?.isNone := by
  unfold ingestStep
  split
  · rename_i msg
    show arrivedIn (onMsg s msg).2 = [msg].filterMap Message.row? ∧ refusedIn (onMsg s msg).2 = [msg].filter _
    unfold onMsg
    cases hrow : msg.row? with
    | none => simp [arrivedIn, refusedIn, IngestEffect.arrived, IngestEffect.refused, hrow]
    | some row =>
        dsimp only
        split <;> simp [arrivedIn, refusedIn, IngestEffect.arrived, IngestEffect.refused, hrow]
  · exact ⟨rfl, rfl⟩
  · split <;> exact ⟨rfl, rfl⟩
  · exact ⟨rfl, rfl⟩
  · split <;> exact ⟨rfl, rfl⟩
  · rename_i c _ _
    cases c <;> exact ⟨rfl, rfl⟩
  · exact ⟨rfl, rfl⟩
  · exact ⟨rfl, rfl⟩
  · exact ⟨rfl, rfl⟩
  · rename_i ev _ _ hmessage _ _ _ _ _ _ _ _
    cases ev with
    | message msg => exact (hmessage msg rfl).elim
    | _ => exact ⟨rfl, rfl⟩

theorem arrivedIn_ingest (events : List IngestEvent) :
    arrivedIn (ingest events).2 = (messagesOf events).filterMap Message.row? ∧
      refusedIn (ingest events).2 = (messagesOf events).filter fun msg => msg.row?.isNone := by
  induction events using List.reverseRecOn with
  | nil => exact ⟨rfl, rfl⟩
  | append_singleton events ev ih =>
      have hlog : (ingest (events ++ [ev])).2 = (ingest events).2 ++ (ingestStep (ingest events).1 ev).2 :=
        congrArg Prod.snd (logged_append events [ev])
      have hmessages : messagesOf (events ++ [ev]) = messagesOf events ++ messagesOf [ev] := List.filterMap_append
      obtain ⟨harrived, hrefused⟩ := ingestStep_arrived (ingest events).1 ev
      unfold arrivedIn at ih harrived ⊢
      unfold refusedIn at ih hrefused ⊢
      rw [hlog, hmessages, List.flatMap_append, List.flatMap_append, List.filterMap_append, List.filter_append, ih.1,
        ih.2, harrived, hrefused]
      exact ⟨rfl, rfl⟩

end Run

/-- **Every message is accounted for.** Over any run of the ingest service, with a database that fails on connecting,
    inserting or committing, and with restarts: a message whose payload is no text raises where it is taken in, and
    the rows of the others are those stored, in hand, waiting, dropped from a full queue, lost with a batch that failed
    or killed with the process, each in one of these; the stored come before those in hand and these before those
    waiting, all in the order they came; no more than 50000 wait and no more than 500 are in hand or lost at once; and
    the counter of rows falls short of the table by exactly the rows about to be counted and those stored by a commit
    that raised or by a process that is gone. -/
theorem ingest_accounted (events : List IngestEvent) :
    let s := (ingest events).1
    let log := (ingest events).2
    let rows := (messagesOf events).filterMap Message.row?
    (s.readings ++ s.writer.pending ++ s.queue ++ missingIn log).Perm rows ∧
      refusedIn log = ((messagesOf events).filter fun msg => msg.row?.isNone) ∧
      (s.readings ++ s.writer.pending ++ s.queue).Sublist rows ∧
      s.queue.length ≤ 50000 ∧ s.writer.pending.length ≤ 500 ∧
      (∀ row n, .dropped row n ∈ log → n = 50000) ∧ (∀ batch, .lost batch ∈ log → batch.length ≤ 500) ∧
      s.readings.length = s.rowsTotal + s.writer.uncounted + unseenIn log := by
  have h := held_run events
  obtain ⟨harrived, hrefused⟩ := arrivedIn_ingest events
  intro s log rows
  rw [show rows = arrivedIn log from harrived.symm]
  exact ⟨h.placed, hrefused, h.ordered, h.queue, h.batch, h.full, h.failed, h.counted⟩

end EdgeCausal.Factory
