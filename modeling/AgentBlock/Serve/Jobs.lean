/-
AgentBlock/Serve/Jobs.lean

Jobs and runs by name: the tools that ask the manager for one, and the handler
that answers.

A tool call becomes a method and a target (`callTool`), with the name percent
encoded in it.  What the handler is handed is the path and the query of the
request as the client's URL parser left them (`hands`, a parameter).  The handler
looks at both as they are: it decodes nothing.
-/
import AgentBlock.Lib.Json
import AgentBlock.Lib.Utf8
import Mathlib.Algebra.Group.Int.Defs

namespace AgentBlock.Serve

/-- The bytes of a text. -/
def bytes (s : String) : Bytes := Utf8.encode s.toList

/-! ### The tools -/

inductive Method where
  | get
  | post
  | delete
  deriving DecidableEq

/-- What a percent encoding leaves as it is. -/
def isUnreserved (b : UInt8) : Bool :=
  (65 ≤ b ∧ b ≤ 90) ∨ (97 ≤ b ∧ b ≤ 122) ∨ (48 ≤ b ∧ b ≤ 57) ∨ b ∈ [45, 95, 46, 126]

def hexDigit (n : UInt8) : UInt8 := if n < 10 then 48 + n else 55 + n

/-- `%XX`. -/
def encodeByte (b : UInt8) : Bytes :=
  if isUnreserved b then [b] else [37, hexDigit (b / 16), hexDigit (b % 16)]

/-- Percent-encode a path segment or a query value. -/
def encode (s : Bytes) : Bytes := s.flatMap encodeByte

/-- The whole number a JSON value is, of 64 bits and no sign. -/
def asU64 : Json → Option ℕ
  | .num (.int n) => if 0 ≤ n ∧ n < 2 ^ 64 then some n.toNat else none
  | _ => none

/-- A required argument. -/
def text (args : Obj) (key : String) : Except String Bytes :=
  match (args.get? key).bind Json.asStr with
  | some s => if s = "" then .error ("`" ++ key ++ "` is required") else .ok (bytes s)
  | none => .error ("`" ++ key ++ "` is required")

/-- The query of a list of runs. -/
def runsQuery (args : Obj) : List Bytes :=
  (((args.get? "job").bind Json.asStr).map fun job => bytes "job=" ++ encode (bytes job)).toList ++
    (((args.get? "limit").bind asU64).map fun limit =>
      bytes "limit=" ++ bytes (toString limit)).toList

/-- The request a tool call is, or why it is none; nothing where no tool has the
name. -/
def callTool (name : String) (args : Obj) : Option (Except String (Method × Bytes)) :=
  match name with
  | "jobs_list" => some (.ok (.get, bytes "/jobs"))
  | "runs_list" =>
      let query := runsQuery args
      some (.ok (.get,
        if query = [] then bytes "/runs"
        else bytes "/runs?" ++ (bytes "&").intercalate query))
  | "run_get" => some ((text args "run_id").map fun id => (.get, bytes "/runs/" ++ encode id))
  | "job_run" =>
      some ((text args "job").map fun job => (.post, bytes "/jobs/" ++ encode job ++ bytes "/runs"))
  | "run_stop" =>
      some ((text args "run_id").map fun id => (.delete, bytes "/runs/" ++ encode id))
  | _ => none

/-! ### The handler -/

/-- `^/runs/([^/]+)$`. -/
def matchRun (path : Bytes) : Option Bytes :=
  match path.dropPrefix? (bytes "/runs/") with
  | some id => if id ≠ [] ∧ 47 ∉ id then some id else none
  | none => none

/-- `^/jobs/([^/]+)/runs$`. -/
def matchJob (path : Bytes) : Option Bytes :=
  match path.dropPrefix? (bytes "/jobs/") with
  | some rest =>
      let name := rest.takeWhile (· ≠ 47)
      if name ≠ [] ∧ rest.drop name.length = bytes "/runs" then some name else none
  | none => none

/-- Where a walk over a query stands: in a key, or in the value of one. -/
inductive At where
  | key (k : Bytes)
  | value (k v : Bytes)

/-- `([^&=]+)=([^&]*)`, from where the walk stands. -/
def queryPairsFrom : At → Bytes → List (Bytes × Bytes)
  | .key _, [] => []
  | .value k v, [] => [(k, v)]
  | .key k, b :: rest =>
      if b = 38 then queryPairsFrom (.key []) rest
      else if b = 61 then
        -- A key has at least one byte.
        if k = [] then queryPairsFrom (.key []) rest else queryPairsFrom (.value k []) rest
      else queryPairsFrom (.key (k ++ [b])) rest
  | .value k v, b :: rest =>
      if b = 38 then (k, v) :: queryPairsFrom (.key []) rest
      else queryPairsFrom (.value k (v ++ [b])) rest

def queryPairs (query : Bytes) : List (Bytes × Bytes) := queryPairsFrom (.key []) query

/-- The value a query has for a key, the last one it gives. -/
def queryValue (query : Bytes) (key : String) : Option Bytes :=
  (queryPairs query).reverse.lookup (bytes key)

/-- What a request is answered with. -/
inductive Handled where
  /-- The declared jobs. -/
  | jobs
  /-- The recorded runs, of one job where there is one, and at most as many as
  the limit says. -/
  | runs (job limit : Option Bytes)
  /-- The recorded run of the id. -/
  | run (id : Bytes)
  /-- A stop is recorded for the run of the id. -/
  | stop (id : Bytes)
  | noLiveRun
  /-- A request is recorded for the job. -/
  | request (job : Bytes)
  | noJob
  | noRoute
  deriving DecidableEq

local instance lawful_ids : LawfulBEq Bytes := inferInstance

/-- The handler, where these jobs are declared and the runs of these ids live. -/
def handle (declared live : List Bytes) (method : Method) (path : Bytes) (query : Option Bytes) :
    Handled :=
  let asked := queryValue (query.getD [])
  if method = .get ∧ path = bytes "/jobs" then .jobs
  else if method = .get ∧ path = bytes "/runs" then .runs (asked "job") (asked "limit")
  else match method, matchRun path, matchJob path with
    | .get, some id, _ => .run id
    | .delete, some id, _ => if id ∈ live then .stop id else .noLiveRun
    | .post, _, some job => if job ∈ declared then .request job else .noJob
    | _, _, _ => .noRoute

/-- What a tool call that is a request is answered with. -/
def asks (hands : Bytes → Bytes × Option Bytes) (declared live : List Bytes) (name : String)
    (args : Obj) : Option Handled :=
  match callTool name args with
  | some (.ok (method, target)) =>
      some (handle declared live method (hands target).1 (hands target).2)
  | _ => none

end AgentBlock.Serve
