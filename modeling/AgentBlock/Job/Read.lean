/-
AgentBlock/Job/Read.lean

What the manager reads off its record, and how it closes what was left live.

The record is the events of the manager's streams, in the order they landed; a
read meets the record as it stands, nothing landing between its statements.  A
field a statement extracts is text, as each record of a job has it, or is not
there.  Rows of one time and one seq are answered in the order they landed, and
seconds are exact.
-/
import AgentBlock.Knl.Query
import AgentBlock.Knl.Store
import Mathlib.Data.List.AList
import Mathlib.Data.List.Dedup
import Mathlib.Data.Rat.Floor

namespace AgentBlock.Job

open Knl (Database Row KnlError stringField appendRows)
open Knl.Query (QueryOpts sessionsOf)

/-! ### The statements -/

/-- Both have the field, and have the same in it. -/
def SameField (name : String) (a b : Row) : Prop :=
  stringField a.event name ≠ none ∧ stringField a.event name = stringField b.event name

instance (name : String) : DecidableRel (SameField name) := fun a b => by
  unfold SameField
  infer_instance

/-- By time, then by seq. -/
def timeLE (a b : Row) : Prop :=
  a.event.epochMs < b.event.epochMs ∨
    a.event.epochMs = b.event.epochMs ∧ a.event.seq ≤ b.event.seq

instance : DecidableRel timeLE := fun a b => by
  unfold timeLE
  infer_instance

section Statements

variable (ids : List String) (db : Database)

/-- The rows of one kind in the named streams. -/
def ofKind (kind : String) : List Row :=
  db.filter fun row => row.stream ∈ ids ∧ row.event.kind = kind

/-- `ENDED_SQL`: each job that has an end, and the time of its last. -/
def endedRows : List (Option String × ℕ) :=
  ((ofKind ids db "run_ended").map fun e => stringField e.event "job").dedup.map fun job =>
    (job, (((ofKind ids db "run_ended").filter fun e => stringField e.event "job" = job).map
      fun e => e.event.epochMs).foldl max 0)

/-- The rows of a kind whose run has no end. -/
def unended (kind : String) : List Row :=
  (ofKind ids db kind).filter fun s =>
    ¬ ∃ e ∈ ofKind ids db "run_ended", SameField "run_id" e s

/-- `LIVE_SQL`. -/
def liveRows : List Row := (unended ids db "run_started").insertionSort timeLE

/-- `REQUESTED_SQL`. -/
def requestedRows : List Row :=
  ((ofKind ids db "run_requested").filter fun r =>
    ¬ ∃ s ∈ db, s.stream ∈ ids ∧ (s.event.kind = "run_started" ∨ s.event.kind = "run_skipped") ∧
      r.event.epochMs ≤ s.event.epochMs ∧ SameField "job" s r).insertionSort timeLE

/-- `STOPS_SQL`. -/
def stopRows : List Row := (unended ids db "run_stop_requested").insertionSort timeLE

end Statements

/-! ### The read -/

structure ReadOpts where
  sessions : Option (List String) := none

/-- The query options a read passes through. -/
def span (opts : ReadOpts) : QueryOpts := { sessions := opts.sessions }

inductive ReadError where
  | query (e : KnlError)
  | cut (who : String)
  deriving DecidableEq

/-- What the second raises. -/
def cutError (who : String) : String :=
  who ++ ": the read hit the kernel's row cap; the log is larger than one decision can take in"

/-- The rows of a statement, or a raise where the read was cut short. -/
def rowsOf {α : Type} (rows : List α) (who : String) (opts : ReadOpts) :
    Except ReadError (List α) :=
  if (span opts).limit < rows.length then .error (.cut who) else .ok rows

structure Live where
  runId : Option String
  seq : ℕ
  started : ℚ
  deriving DecidableEq

structure Request where
  job : Option String
  seq : ℕ
  asker : Option String
  deriving DecidableEq

structure StopRequest where
  runId : Option String
  seq : ℕ
  asker : Option String
  deriving DecidableEq

/-- What a tick decides by; `ended` and `live` have one entry a job. -/
structure Facts where
  ended : AList fun _ : String => ℚ
  live : AList fun _ : String => Live
  liveCount : ℕ
  requested : List Request
  stops : List StopRequest

def liveOf (row : Row) : Live where
  runId := stringField row.event "run_id"
  seq := row.event.seq
  started := (row.event.epochMs : ℚ) / 1000

def requestOf (row : Row) : Request where
  job := stringField row.event "job"
  seq := row.event.seq
  asker := stringField row.event "by"

def stopOf (row : Row) : StopRequest where
  runId := stringField row.event "run_id"
  seq := row.event.seq
  asker := stringField row.event "by"

/-- An end, where its job is there. -/
def keepEnded (ended : AList fun _ : String => ℚ) (row : Option String × ℕ) :
    AList fun _ : String => ℚ :=
  match row.1 with
  | some job => ended.insert job ((row.2 : ℚ) / 1000)
  | none => ended

/-- A run, where its job is there; it takes the place of another of that job. -/
def keepLive (live : AList fun _ : String => Live) (row : Row) : AList fun _ : String => Live :=
  match stringField row.event "job" with
  | some job => live.insert job (liveOf row)
  | none => live

/-- The facts a tick needs, read off the record: of the streams it names, or of
the session's own. -/
def read (own : String) (opts : ReadOpts) (db : Database) : Except ReadError Facts := do
  let ids ← (sessionsOf (span opts) own).mapError .query
  let ended ← rowsOf (endedRows ids db) "job.read" opts
  let live ← rowsOf (liveRows ids db) "job.read" opts
  let requested ← rowsOf (requestedRows ids db) "job.read" opts
  let stops ← rowsOf (stopRows ids db) "job.read" opts
  return {
    ended := ended.foldl keepEnded ∅
    live := live.foldl keepLive ∅
    liveCount := (live.filter fun row => (stringField row.event "job").isSome).length
    requested := requested.map requestOf
    stops := stops.map stopOf }

/-! ### Reconciling -/

/-- The end of a run that is lost. -/
def lostEvent (now : ℚ) (job : String) (live : Live) : Obj :=
  [("kind", .str "run_ended"),
    ("data", .obj ([("job", .str job)] ++ (live.runId.map fun id => ("run_id", .str id)).toList ++
      [("outcome", .str "lost"), ("took_s", .num (.float (now - live.started)))]))]

section Reconcile

variable (clock : ℕ → ℕ)
  (pairs : List (Sigma fun _ : String => Live) → List (Sigma fun _ : String => Live))

/-- Close every run the read says is live, in the order `pairs` gives, and
answer how many. -/
def reconcile (own : String) (now : ℚ) (opts : ReadOpts) (db : Database) :
    Except ReadError ℕ × Database :=
  match read own opts db with
  | .error e => (.error e, db)
  | .ok facts =>
      let live := pairs facts.live.entries
      (.ok live.length, appendRows clock db own (live.map fun r => lostEvent now r.1 r.2))

end Reconcile

end AgentBlock.Job
