/-
AgentBlock/Serve/Manager.lean

The job manager: its loop, the tasks of its runs, and what its handler records.

Each append and each query of the log is one step, and between any two steps of
one of them the others may take theirs.  An append that an aborted task has
handed over may still land, or not.  What is left out: a run's files and what a
record says besides its job, its run, and the request it answers.
-/
import AgentBlock.Job.Facts
import AgentBlock.Job.Tick
import AgentBlock.Lib.Leases
import AgentBlock.Lib.Steps

namespace AgentBlock.Serve

open Job
open Knl (Database Row stringField appendRow)

/-! ### The manager's state -/

/-- What the command line and the job files give; `ids` are all the manager's
sessions, `own` the one it writes. -/
structure Config where
  own : String
  ids : List String
  jobs : List Declared
  maxRuns : ℕ
  tickS : ℕ

/-- Where a run is: its start has still to land, its process is still to answer,
its end has still to land, or the task has nothing left to record. -/
inductive Stage where
  | starting
  | running
  | ending (outcome : String) (more : Obj)
  | over

/-- A run of this process; it is a handle while it is listed. -/
structure Task where
  job : String
  run : String
  requested : Option ℕ
  stage : Stage

namespace Task

def startEntry (t : Task) : Entry :=
  .runStarted t.job t.run (t.requested.map fun seq => ("requested", .num (.int seq))).toList

/-- What a task has handed over, and has still to land. -/
def inFlight (t : Task) : Option Entry :=
  match t.stage with
  | .starting => some t.startEntry
  | .ending outcome more => some (.runEnded t.job t.run outcome more)
  | _ => none

end Task

/-- The statements of a read, in their order. -/
inductive Query where
  | ended
  | live
  | requested
  | stops

def Query.next : Query → Option Query
  | ended => some live
  | live => some requested
  | requested => some stops
  | stops => none

/-- Who reads: a tick, for the first time or again, or the manager that leaves. -/
inductive Reader where
  | tick (now : ℚ) (again : Bool)
  | leave (now : ℚ) (handles : List String)

inductive Phase where
  | sleeping (wake : ℚ)
  | reading (reader : Reader) (next : Query) (facts : Facts)
  | stopping (now : ℚ) (facts : Facts) (todo : List StopRequest)
  | closing (now : ℚ) (facts : Facts) (todo : List StopRequest) (e : Entry)
  | skipping (now : ℚ) (todo : List Skip) (starts : List Start)
  | aborting (now : ℚ) (handles : List String)
  | recording (now : ℚ) (handles : List String) (todo : List (Sigma fun _ : String => Live))
  | left

structure World where
  db : Database
  time : ℚ
  phase : Phase
  tasks : List Task
  /-- Appends of aborted tasks that may still land. -/
  flight : List Entry
  /-- Runs that the handler found live, and is to record a stop of. -/
  checked : List String

/-! ### What a step does -/

/-- The milliseconds of a time. -/
def msOf (t : ℚ) : ℕ := ⌊t * 1000⌋.toNat

def runId (job : String) (ms : ℕ) : String := job ++ "-" ++ toString ms

def noFacts : Facts := ⟨∅, ∅, 0, [], []⟩

def skipEntry (sk : Skip) : Entry :=
  .runSkipped sk.job sk.reason.text
    (sk.requested.map fun seq => ("requested", .num (.int seq))).toList

def endEntry (now : ℚ) (job run outcome : String) (live : Live) : Entry :=
  .runEnded job run outcome [("took_s", .num (.float (now - live.started)))]

def Phase.isLeaving : Phase → Bool
  | reading (.leave _ _) _ _ | aborting _ _ | recording _ _ _ | left => true
  | _ => false

/-- What the loop has handed over, and has still to land. -/
def Phase.inFlight : Phase → Option Entry
  | closing _ _ _ e => some e
  | skipping _ (sk :: _) _ => some (skipEntry sk)
  | _ => none

section

variable (cfg : Config)

/-- One statement of a read, on what the others answered. -/
def queried (db : Database) (facts : Facts) : Query → Except ReadError Facts
  | .ended => (rowsOf (endedRows cfg.ids db) "job.read" ⟨some cfg.ids⟩).map fun rows =>
      { facts with ended := rows.foldl keepEnded ∅ }
  | .live => (rowsOf (liveRows cfg.ids db) "job.read" ⟨some cfg.ids⟩).map fun rows =>
      { facts with
        live := rows.foldl keepLive ∅
        liveCount := (rows.filter fun row => (stringField row.event "job").isSome).length }
  | .requested => (rowsOf (requestedRows cfg.ids db) "job.read" ⟨some cfg.ids⟩).map fun rows =>
      { facts with requested := rows.map requestOf }
  | .stops => (rowsOf (stopRows cfg.ids db) "job.read" ⟨some cfg.ids⟩).map fun rows =>
      { facts with stops := rows.map stopOf }

namespace World

variable (w : World)

def append (e : Entry) : World :=
  { w with db := appendRow (fun _ => msOf w.time) w.db cfg.own e.toObj }

/-- A tick is over, or has raised. -/
def sleep : World := { w with phase := .sleeping (w.time + cfg.tickS) }

def find (run : String) : Option Task := w.tasks.find? fun t => t.run = run

def setStage (run : String) (stage : Stage) : World :=
  { w with tasks := w.tasks.map fun t => if t.run = run then { t with stage } else t }

def remove (run : String) : World := { w with tasks := w.tasks.filter fun t => t.run ≠ run }

/-- A task ends where it waits; what it has handed over may still land. -/
def abort (run : String) : World :=
  { w.remove run with
    flight := w.flight ++ ((w.find run).bind Task.inFlight).toList }

def decide (now : ℚ) (facts : Facts) : World :=
  let plan := Job.tick facts now cfg.maxRuns cfg.jobs
  { w with phase := .skipping now (plan.skip.filter fun sk => sk.requested.isSome) plan.start }

/-- What follows a read. -/
def readDone (facts : Facts) : Reader → World
  | .tick now again =>
      if again = false ∧ facts.stops ≠ [] then { w with phase := .stopping now facts facts.stops }
      else w.decide cfg now facts
  | .leave now handles => { w with phase := .recording now handles facts.live.entries }

def readRaised : Reader → World
  | .tick _ _ => w.sleep cfg
  | .leave _ _ => { w with phase := .left }

def query (reader : Reader) (next : Query) (facts : Facts) : World :=
  match queried cfg w.db facts next with
  | .error _ => w.readRaised cfg reader
  | .ok facts =>
      match next.next with
      | some query => { w with phase := .reading reader query facts }
      | none => w.readDone cfg facts reader

/-- On to the next stop, or to the second read. -/
def stopped (now : ℚ) (facts : Facts) (todo : List StopRequest) : World :=
  match todo with
  | [] => { w with phase := .reading (.tick now true) .ended noFacts }
  | st :: rest => { w with phase := .stopping now facts (st :: rest) }

/-- `live_of`. -/
def liveOfRun (facts : Facts) (run : String) : Option (Sigma fun _ : String => Live) :=
  facts.live.entries.find? fun r => r.2.runId = some run

/-- A stop, where `sh.kill` answered whether there was a process. -/
def kill (now : ℚ) (facts : Facts) (run : String) (rest : List StopRequest) (killed : Bool) :
    World :=
  if killed then w.stopped now facts rest
  else
    match liveOfRun facts run with
    | none => (w.abort run).stopped now facts rest
    | some r =>
        { w.abort run with
          phase := .closing now facts rest
            (endEntry now r.1 run (if (w.find run).isSome then "stopped" else "lost") r.2) }

def taskOf (now : ℚ) (s : Start) : Task :=
  ⟨s.decl.name, runId s.decl.name (msOf now), s.requested, .starting⟩

end World

/-! ### Steps -/

/-- What may happen next; of an append, whether it lands or raises. -/
inductive Act where
  | wait (d : ℚ)
  | tick
  | query
  | kill (killed : Bool)
  | close (lands : Bool)
  | skip (lands : Bool)
  | spawn
  | start (run : String) (lands : Bool)
  | answer (run outcome : String) (more : Obj)
  | raise (run : String)
  | finish (run : String) (lands : Bool)
  | drop (run : String)
  | land (n : ℕ)
  | ask (job : String) (asker : Option String)
  | check (run : String)
  | stop (run : String) (asker : Option String)
  | leave
  | abort (run : String)
  | aborted
  | record (lands : Bool)

open World in
def step (w : World) : Act → Option World
  | .wait d => if 0 ≤ d then some { w with time := w.time + d } else none
  | .tick =>
      match w.phase with
      | .sleeping wake =>
          if wake ≤ w.time then
            some { w with phase := .reading (.tick w.time false) .ended noFacts }
          else none
      | _ => none
  | .query =>
      match w.phase with
      | .reading reader next facts => some (w.query cfg reader next facts)
      | _ => none
  | .kill killed =>
      match w.phase with
      | .stopping now facts (st :: rest) =>
          match st.runId with
          | some run => some (w.kill now facts run rest killed)
          | none => some (w.sleep cfg)
      | _ => none
  | .close lands =>
      match w.phase with
      | .closing now facts rest e =>
          -- an append that fails raises out of the turn, which ends there
          if lands then some ((w.append cfg e).stopped now facts rest) else some (w.sleep cfg)
      | _ => none
  | .skip lands =>
      match w.phase with
      | .skipping now (sk :: todo) starts =>
          if lands then
            some { w.append cfg (skipEntry sk) with phase := .skipping now todo starts }
          else some (w.sleep cfg)
      | _ => none
  | .spawn =>
      match w.phase with
      | .skipping now [] starts =>
          -- the tasks are spawned, and none of them has run yet
          some ({ w with tasks := starts.map (taskOf now) ++ w.tasks }.sleep cfg)
      | _ => none
  | .start run lands =>
      match w.find run with
      | some ⟨job, run, requested, .starting⟩ =>
          if lands then
            some ((w.append cfg (Task.startEntry ⟨job, run, requested, .starting⟩)).setStage run
              .running)
          else some (w.setStage run .over)
      | _ => none
  | .answer run outcome more =>
      match w.find run with
      | some ⟨_, run, _, .running⟩ => some (w.setStage run (.ending outcome more))
      | _ => none
  | .raise run =>
      match w.find run with
      | some ⟨_, run, _, .running⟩ => some (w.setStage run .over)
      | _ => none
  | .finish run lands =>
      match w.find run with
      | some ⟨job, run, _, .ending outcome more⟩ =>
          if lands then
            some ((w.append cfg (.runEnded job run outcome more)).setStage run .over)
          else some (w.setStage run .over)
      | _ => none
  | .drop run =>
      match w.find run with
      | some ⟨_, run, _, .over⟩ => some (w.remove run)
      | _ => none
  | .land n =>
      match w.flight[n]? with
      -- an append that was on its way when its task was dropped still lands
      | some e => some { w.append cfg e with flight := w.flight.eraseIdx n }
      | none => none
  | .ask job asker =>
      -- a request of the tool, from another handle of the stream
      if job ∈ cfg.jobs.map Declared.name then some (w.append cfg (.runRequested job asker))
      else none
  | .check run =>
      if (liveOfRun (factsOf cfg.ids w.db) run).isSome then
        some { w with checked := run :: w.checked }
      else none
  | .stop run asker =>
      if run ∈ w.checked then
        some { w.append cfg (.runStopRequested run asker) with checked := w.checked.erase run }
      else none
  | .leave =>
      if w.phase.isLeaving then none
      else some { w with
        phase := .aborting w.time [], flight := w.flight ++ w.phase.inFlight.toList }
  | .abort run =>
      match w.phase, w.find run with
      | .aborting now handles, some _ =>
          some { w.abort run with phase := .aborting now (run :: handles) }
      | _, _ => none
  | .aborted =>
      match w.phase, w.tasks with
      | .aborting now handles, [] =>
          some { w with phase := .reading (.leave now handles) .ended noFacts }
      | _, _ => none
  | .record lands =>
      match w.phase with
      | .recording _ _ [] => some { w with phase := .left }
      | .recording now handles (r :: todo) =>
          match r.2.runId with
          | some run =>
              -- only the runs of this process that were aborted are ended here
              if run ∈ handles then
                if lands then
                  some { w.append cfg (endEntry now r.1 run "stopped" r.2) with
                    phase := .recording now handles todo }
                else some { w with phase := .left }
              else some { w with phase := .recording now handles todo }
          | none => some { w with phase := .recording now handles todo }
      | _ => none

end

end AgentBlock.Serve
