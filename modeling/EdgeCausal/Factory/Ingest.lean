import Mathlib
import EdgeCausal.Temporal.History

/-!
# `Factory.Ingest` — from the sensors to the readings

The ingest service takes sensor messages off the broker into a queue and writes them to the database in batches. The
broker's callback and the writer share the queue only; each touches it in one step, so that a run is a sequence of
their steps. The database fails where it may: on connecting, on inserting, and on committing, with or without having
committed.
-/

namespace EdgeCausal.Factory

open Lib

/-- A message, with the time at which it is taken in. -/
structure Message where
  ts : ℚ
  topic : String
  payload : ByteArray

/-- A row of the readings. -/
structure Row where
  ts : ℚ
  topic : String
  payload : String
deriving DecidableEq

/-- The row of a message; `payload.decode()` raises when the bytes are no text. -/
def Message.row? (msg : Message) : Option Row :=
  (String.fromUTF8? msg.payload).map fun text => ⟨msg.ts, msg.topic, text⟩

/-- `Queue(maxsize=50000)`. -/
def maxsize : ℕ := 50000

/-- The rows of one batch, at most. -/
def batchSize : ℕ := 500

/-- Where the writer stands, and the batch it has in hand. -/
inductive Writer where
  | connecting
  | waiting
  | filling (batch : List Row)
  | inserting (batch : List Row)
  | committing (batch : List Row)
  | counting (batch : List Row)
  | gauging

/-- The service, its metrics, and what the database has committed. -/
structure Ingest where
  queue : List Row
  writer : Writer
  rowsTotal : ℕ
  queueDepth : ℕ
  readings : List Row

def Ingest.start (readings : List Row) : Ingest := ⟨[], .connecting, 0, 0, readings⟩

/-- How a commit ends: it returns, or raises before or after the database has committed. -/
inductive Commit where
  | done
  | failed
  | unknown

inductive IngestEvent where
  | message (msg : Message)
  | connect (ok : Bool)
  | get
  | fill (inTime : Bool)
  | execute (ok : Bool)
  | commit (c : Commit)
  | count
  | gauge
  | restart

/-- What becomes of messages and rows. -/
inductive IngestEffect where
  | raised (msg : Message)
  | queued (row : Row)
  | dropped (row : Row) (waiting : ℕ)
  | lost (batch : List Row)
  | killed (rows : List Row)
  | stored (batch : List Row)
  | uncounted (n : ℕ)

/-- The rows in the writer's hand that are not in the database. -/
def Writer.pending : Writer → List Row
  | .filling batch => batch
  | .inserting batch => batch
  | .committing batch => batch
  | _ => []

/-- The rows in the database that the writer is about to count. -/
def Writer.uncounted : Writer → ℕ
  | .counting batch => batch.length
  | _ => 0

/-- `on_msg`: a message that finds the queue full is dropped; one that is no text raises, which sends the client back
    to connect and leaves the writer and the queue alone. -/
def onMsg (s : Ingest) (msg : Message) : Ingest × List IngestEffect :=
  match msg.row? with
  | none => (s, [.raised msg])
  | some row =>
      if s.queue.length < maxsize then ({ s with queue := s.queue ++ [row] }, [.queued row])
      else (s, [.dropped row s.queue.length])

/-- The batch takes what waits, up to its size and for a second. -/
def fillStep (s : Ingest) (batch : List Row) (inTime : Bool) : Ingest :=
  if batch.length < batchSize ∧ inTime then
    match s.queue with
    | [] => { s with writer := .inserting batch }
    | row :: queue => { s with queue := queue, writer := .filling (batch ++ [row]) }
  else { s with writer := .inserting batch }

/-- `conn.commit()`; what raises sends the writer back to connect, with another batch. -/
def commitStep (s : Ingest) (batch : List Row) : Commit → Ingest × List IngestEffect
  | .done => ({ s with readings := s.readings ++ batch, writer := .counting batch }, [.stored batch])
  | .failed => ({ s with writer := .connecting }, [.lost batch])
  | .unknown =>
      ({ s with readings := s.readings ++ batch, writer := .connecting }, [.stored batch, .uncounted batch.length])

/-- One step; one that is not enabled does nothing. -/
def ingestStep (s : Ingest) (ev : IngestEvent) : Ingest × List IngestEffect :=
  match ev, s.writer with
  | .message msg, _ => onMsg s msg
  | .connect ok, .connecting => ({ s with writer := if ok then .waiting else .connecting }, [])
  | .get, .waiting =>
      match s.queue with
      | [] => (s, [])
      | row :: queue => ({ s with queue := queue, writer := .filling [row] }, [])
  | .fill inTime, .filling batch => (fillStep s batch inTime, [])
  | .execute ok, .inserting batch =>
      if ok then ({ s with writer := .committing batch }, []) else ({ s with writer := .connecting }, [.lost batch])
  | .commit c, .committing batch => commitStep s batch c
  | .count, .counting batch => ({ s with rowsTotal := s.rowsTotal + batch.length, writer := .gauging }, [])
  | .gauge, .gauging => ({ s with queueDepth := s.queue.length, writer := .waiting }, [])
  | .restart, w =>
      (.start s.readings, [.killed (w.pending ++ s.queue), .uncounted (s.rowsTotal + w.uncounted)])
  | _, _ => (s, [])

/-- A run of the service, from an empty table. -/
def ingest (events : List IngestEvent) : Ingest × List IngestEffect := logged ingestStep (.start []) events

end EdgeCausal.Factory
