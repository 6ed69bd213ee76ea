/-
AgentBlock/Job/Run.lean

One run of a job: its start is recorded, its process runs, its end is recorded.

A Lua string is its bytes; what `sh.exec` answers is text.  The functions a run
is handed or finds registered are in `RunOpts` and in `Host`; any of them may
raise.  `RunM` keeps what was appended when the run raises.
-/
import AgentBlock.Lib.Lua
import AgentBlock.Lib.Utf8
import Mathlib.Algebra.Order.Floor.Defs
import Mathlib.Data.Rat.Floor

namespace AgentBlock.Job

open Utf8

/-! ### Records -/

/-- A value of a record's data. -/
inductive Value where
  | str (s : Bytes)
  | num (n : LuaNumber)
  | bool (b : Bool)
  deriving DecidableEq

structure Event where
  kind : String
  data : List (String × Value)
  deriving DecidableEq

namespace Event

/-- A table constructor with these fields: one that is given `nil` is not
there. -/
def record (kind : String) (fields : List (String × Option Value)) : Event :=
  ⟨kind, fields.filterMap fun f => f.2.map fun v => (f.1, v)⟩

def get (e : Event) (key : String) : Option Value := e.data.lookup key

/-- Every string of the record is text, and every number is one of JSON. -/
def Encodable (e : Event) : Prop :=
  ∀ f ∈ e.data, match f.2 with
    | .str s => Valid s
    | .num (.inf _) => False
    | .num .nan => False
    | _ => True

end Event

/-- What is raised. -/
inductive Raise where
  | error (text : String)
  | toStr
  | toNumber
  | store
  deriving DecidableEq

/-- Why `lua_to_json` refuses a value. -/
def Value.refused : Value → Option Raise
  | .str s => if Valid s then none else some .toStr
  | .num (.inf _) => some .toNumber
  | .num .nan => some .toNumber
  | _ => none

/-- A computation that appends records, and may raise. -/
abbrev RunM := ExceptT Raise (StateM (List Event))

/-- `session:append`.  `takes n` is whether the store takes the run's record
number `n`. -/
def append (takes : Nat → Bool) (e : Event) : RunM Unit := do
  match e.data.findSome? fun f => f.2.refused with
  | some raised => throw raised
  | none =>
      let records ← get
      if takes records.length then set (records ++ [e]) else throw .store

/-! ### What a run is told -/

structure Decl where
  name : Bytes
  block : Bytes
  path : Bytes
  cwd : Bytes
  every : Option LuaNumber
  timeout : LuaNumber
  prompt : Option Bytes
  context : Option Bytes

structure Config where
  prompt : Option Bytes
  context : Option Bytes
  result : Option Bytes
  job : Bytes
  run : Bytes

def config (decl : Decl) (runId : Bytes) (result : Option Bytes) : Config where
  prompt := decl.prompt
  context := decl.context
  result := result
  job := decl.name
  run := runId

/-- The bytes of a literal. -/
def lit (s : String) : Bytes := encode s.toList

def defaultBin : Bytes := lit "agent-block"

/-- Single-quote a string for `sh -c`. -/
def sq (s : Bytes) : Bytes :=
  lit "'" ++ s.flatMap (fun b => if b = 39 then lit "'\\''" else [b]) ++ lit "'"

def command (decl : Decl) (bin configPath : Option Bytes) : Bytes :=
  let parts := [sq (bin.getD defaultBin), lit "-s", sq decl.path, lit "-p", sq decl.cwd]
  let parts := match configPath with
    | some path => parts ++ [lit "--config", sq path]
    | none => parts
  (lit " ").intercalate parts

/-! ### What a process answers -/

/-- A table `sh.exec` answers. -/
structure ExecResult where
  ok : Bool
  code : Option Int := none
  stderr : Option (List Char) := none
  killed : Option Bool := none
  error : Option (List Char) := none
  timedOut : Option Bool := none

/-- A table, or another value and what `tostring` shows of it. -/
inductive ExecAnswer where
  | table (result : ExecResult)
  | other (shown : List Char)

structure ExecOpts where
  cwd : Bytes
  timeout : LuaNumber
  label : Bytes

abbrev Exec := Bytes → ExecOpts → Except Raise ExecAnswer

/-- `sh.exec` takes its command as text; `runAsync` runs it. -/
def shExec (runAsync : Bytes → ExecOpts → ExecResult) : Exec := fun cmd opts =>
  if Valid cmd then .ok (.table (runAsync cmd opts)) else .error .toStr

inductive Outcome where
  | ok
  | failed
  | timeout
  | stopped
  | deferred
  deriving DecidableEq

def Outcome.text : Outcome → String
  | ok => "ok"
  | failed => "failed"
  | timeout => "timeout"
  | stopped => "stopped"
  | deferred => "deferred"

def deferredExit : Int := 75

/-- The outcome, the exit code and the error a run ends with. -/
def outcomeOf : ExecAnswer → Outcome × Option Int × Option Bytes
  | .other shown => (.failed, none, some (lit "run answered " ++ encode shown))
  | .table result =>
      if result.ok then
        if result.killed = some true then (.stopped, result.code, none)
        else if result.code = some 0 then (.ok, some 0, none)
        -- no exit code: a signal from elsewhere ended it, which is a stop too
        else if result.code.any (· < 0) then (.stopped, result.code, none)
        else if result.code = some deferredExit then (.deferred, result.code, none)
        else (.failed, result.code, none)
      else
        let err := encode (result.error.getD [])
        if result.timedOut = some true ∨ (lit "timeout after").isPrefixOf err then
          (.timeout, none, some err)
        else (.failed, none, some err)

/-- The last `n` bytes of a text. -/
def tail (s : Option (List Char)) (n : Nat) : Bytes :=
  let text := encode (s.getD [])
  if text.length ≤ n then text else text.drop (text.length - n)

def stderrTailBytes : Nat := 4096

/-- What the record keeps of the process's stderr. -/
def stderrOf : ExecAnswer → Option Bytes
  | .table result => some (tail result.stderr stderrTailBytes)
  | .other _ => none

def resultMaxBytes : Nat := 65536

/-! ### A run -/

/-- What the caller hands in. -/
structure RunOpts where
  exec : Option Exec := none
  bin : Option Bytes := none
  requested : Option Int := none
  runId : Option Bytes := none
  result : Option Bytes := none
  config : Option Bytes := none
  write : Option (Bytes → Bytes → Except Raise Unit) := none
  encode : Option (Config → Except Raise Bytes) := none
  /-- A string is read, or a value that is none. -/
  read : Option (Bytes → Except Raise (Option Bytes)) := none

/-- What is registered where the run is, and what its clock reads at its start
and at its process's end. -/
structure Host where
  exec : Option Exec := none
  write : Option (Bytes → Bytes → Except Raise Unit) := none
  encode : Option (Config → Except Raise Bytes) := none
  read : Option (Bytes → Except Raise (Option Bytes)) := none
  started : Rat := 0
  ended : Rat := 0
  takes : Nat → Bool := fun _ => true

structure RunResult where
  runId : Bytes
  outcome : Outcome
  exitCode : Option Int
  took : Rat
  error : Option Bytes
  result : Option Bytes

/-- The function, or what is raised where there is none. -/
def present {α : Type} (f : Option α) (text : String) : RunM α :=
  match f with
  | some f => pure f
  | none => throw (.error text)

/-- What a call raises, the run raises. -/
def call {α : Type} : Except Raise α → RunM α
  | .ok a => pure a
  | .error raised => throw raised

section

variable (host : Host) (decl : Decl) (opts : RunOpts)

/-- The id of the run. -/
def runId : Bytes :=
  opts.runId.getD (decl.name ++ lit ("-" ++ toString ⌊host.started * 1000⌋))

def runStarted : Event :=
  .record "run_started" [
    ("job", some (.str decl.name)),
    ("run_id", some (.str (runId host decl opts))),
    ("block", some (.str decl.block)),
    ("cwd", some (.str decl.cwd)),
    ("timeout_s", some (.num decl.timeout)),
    ("requested", opts.requested.map fun n => .num (.int n))]

/-- The run's config file is written, where it has one. -/
def writeConfig : RunM Unit :=
  match opts.config with
  | none => pure ()
  | some path => do
      let write ← present (opts.write <|> host.write)
        "job.run: no write: pass opts.write, or run where `std.fs.write` exists"
      let encode ← present (opts.encode <|> host.encode)
        "job.run: no encode: pass opts.encode, or run where `std.json.encode` exists"
      let text ← call (encode (Job.config decl (runId host decl opts) opts.result))
      call (write path text)

/-- The block's answer, whole or not at all; and whether it is too large. -/
def readAnswer : Option Bytes × Bool :=
  match opts.result, opts.read <|> host.read with
  | some path, some read =>
      match read path with
      | .ok (some content) =>
          if content.length ≤ resultMaxBytes then (some content, false) else (none, true)
      | _ => (none, false)
  | _, _ => (none, false)

def runEnded (result : ExecAnswer) : Event :=
  let ended := outcomeOf result
  let answer := readAnswer host opts
  .record "run_ended" [
    ("job", some (.str decl.name)),
    ("run_id", some (.str (runId host decl opts))),
    ("outcome", some (.str (lit ended.1.text))),
    ("exit_code", ended.2.1.map fun n => .num (.int n)),
    ("took_s", some (.num (.float (host.ended - host.started)))),
    ("error", ended.2.2.map .str),
    ("stderr", (stderrOf result).map .str),
    ("result", answer.1.map .str),
    ("result_path", opts.result.map .str),
    ("result_truncated", if answer.2 then some (.bool true) else none)]

def execOpts : ExecOpts where
  cwd := decl.cwd
  timeout := decl.timeout
  label := runId host decl opts

def run : RunM RunResult := do
  let exec ← present (opts.exec <|> host.exec)
    "job.run: no exec: pass opts.exec, or run where `sh.exec` is registered"
  append host.takes (runStarted host decl opts)
  writeConfig host decl opts
  let result ← call (exec (command decl opts.bin opts.config) (execOpts host decl opts))
  append host.takes (runEnded host decl opts result)
  return {
    runId := runId host decl opts
    outcome := (outcomeOf result).1
    exitCode := (outcomeOf result).2.1
    took := host.ended - host.started
    error := (outcomeOf result).2.2
    result := (readAnswer host opts).1 }

/-- What the call adds to the log, in order. -/
def appended : List Event := ((run host decl opts).run.run []).2

end

end AgentBlock.Job
