/-
AgentBlock/Shell/Beat.lean

One beat: read, fold, filter, reserve, record, call, record, run the tools.

A beat is a program over what it calls (`BeatOp`): the session's calls, and
the functions its device is made of.  Any of them may answer any values or
raise any value, so a statement about every path of a beat is one about every
session, every device and every failure.
-/
import AgentBlock.Lib.Prog
import AgentBlock.Lib.Quoted
import AgentBlock.Shell.Fold

namespace AgentBlock.Shell

open Interleaving
open Lua (record array)

/-! ### Calls -/

/-- What a beat calls: its session, the functions of its device, the kernel's
reader of a raise, and in dev mode the shape assertions. -/
inductive BeatOp where
  | newBeatId
  | events
  | fold (events : Lua)
  | filter (i : Nat) (request : Lua)
  | cost (request : Lua)
  | reserve (amount : Lua)
  | append (event : Lua)
  | llm (request : Lua)
  | toolPolicy (block out : Lua)
  | handler (name : String) (args : Lua)
  | readError (raised : Lua)
  | assertDev (value : Lua) (what : String)

/-- A call raises, or answers the two values a beat reads of it. -/
abbrev BeatOp.Ans (_ : BeatOp) : Type := Except Lua (Lua × Lua)

/-- Code that calls, and may raise. -/
abbrev ShellM : Type → Type := ExceptT Lua (Prog BeatOp BeatOp.Ans)

/-- The machine a beat runs on. -/
structure Vm where
  dev : Bool
  traceback : Lua
  tostring : Lua → String

def call (op : BeatOp) : ShellM (Lua × Lua) := ExceptT.mk (Prog.perform op)

def raise {α : Type} (v : Lua) : ShellM α := throw v

/-- Run to a value or to what it raised. -/
def pcall {α : Type} (m : ShellM α) : ShellM (Except Lua α) := ExceptT.lift m.run

section Vm

variable (vm : Vm)

/-- The raise and, in dev mode, the stack beside it. -/
def traced (raised : Lua) : Lua :=
  if vm.dev then
    record [("raised", raised), ("traced", .bool true), ("traceback", vm.traceback)]
  else record [("raised", raised)]

def xpcall (op : BeatOp) : ShellM (Except Lua (Lua × Lua)) := do
  match ← pcall (call op) with
  | .ok answer => return .ok answer
  | .error raised => return .error (traced vm raised)

/-- What a traced failure raised, as text. -/
def raisedText (caught : Lua) : String :=
  if caught.isTable then vm.tostring (caught.get "raised") else vm.tostring caught

/-- The detail of a failure of the caller's own code. -/
def raisedDetail (message : String) (caught : Lua) : Lua :=
  if caught.isTable && (caught.get "traced").truthy then
    record [("message", .str message), ("traceback", caught.get "traceback")]
  else .str message

/-- A raised kernel failure as data. -/
def readError (raised : Lua) : ShellM Lua := do
  match ← pcall (call (.readError raised)) with
  | .ok (structured, _) =>
      if structured.isTable then return structured
      else return record [("retryable", .bool false), ("message", .str (vm.tostring raised))]
  | .error _ =>
      return record [("retryable", .bool false), ("message", .str (vm.tostring raised))]

/-- A shape assertion; in prod it is not there. -/
def assertDev (value : Lua) (what : String) : ShellM Unit :=
  if vm.dev then do let _ ← call (.assertDev value what) else pure ()

/-- The kinds `shapes.events` declares the data of. -/
def DECLARED_KINDS : List String :=
  ["session_opened", "session_closed", "msg_user", "llm_request", "llm_response",
    "llm_call_failed", "tool_call", "tool_result"]

def assertEventDev (ev : Lua) : ShellM Unit := do
  assertDev vm ev "knl_event"
  if !(ev.get "meta").isNil then assertDev vm (ev.get "meta") "knl_event meta"
  match (ev.get "kind").asStr with
  | some kind =>
      if kind ∈ DECLARED_KINDS then
        assertDev vm (ev.get "data") ("knl_event data (" ++ kind ++ ")")
  | none => pure ()

/-- Append an event this beat is writing. -/
def recordEvent (ev : Lua) : ShellM (Lua × Lua) := do
  assertEventDev vm ev
  call (.append ev)

/-- Stamp the beat id on an event about to be written: it joins the labels. -/
def withBeat (ev beatId : Lua) : Lua :=
  let labels := match (ev.get "meta").orElse (.table [] []) with
    | .table _ fields => fields
    | _ => []
  ev.set "meta" (.table [] (Lua.setField labels "beat" beatId))

/-! ### Outcomes -/

/-- What a beat answers. -/
inductive Outcome where
  | ok (out : Lua)
  | refused (reason detail : Lua)
  | err (kind : String) (detail : Lua)
  | stopped (reason : String) (tag : Lua)

def Outcome.toLua : Outcome → Lua
  | .ok out => record [("status", .str "ok"), ("out", out)]
  | .refused reason detail =>
      record [("status", .str "refused"), ("reason", reason), ("detail", detail)]
  | .err kind detail =>
      record [("status", .str "error"), ("kind", .str kind), ("detail", detail)]
  | .stopped reason tag =>
      record [("status", .str "stopped"), ("reason", .str reason), ("tag", tag)]

def emit (o : Outcome) : ShellM Outcome := do
  assertDev vm o.toLua "knl_outcome"
  match o with
  | .err "state" detail => assertDev vm detail "knl_state_detail"
  | _ => pure ()
  return o

/-! ### The llm's answer -/

/-- What is wrong with an llm's answer, `nil` when nothing is. -/
def llmContractViolation (resp : Lua) : Lua :=
  if !resp.isTable then
    if resp.isNil then .str "llm answered neither a result nor an error"
    else .str ("llm returned " ++ resp.type ++
      " (the contract is a table, or nil and an error)")
  else
    let status := resp.get "status"
    let refused := status.eq (.str "refused")
    if !status.eq (.str "ok") && !refused then
      .str ("llm answered status " ++ vm.tostring status ++
        " (llm_result is \"ok\" or \"refused\")")
    else if !(resp.get "usage").isTable then
      .str ("llm answered a " ++ (resp.get "usage").type ++
        " usage (llm_result promises the three counts)")
    else if refused && !(resp.get "refusal").isTable then
      .str "llm refused without a refusal (llm_result promises refusal.kind on a refusal)"
    else if refused && (((resp.get "refusal").get "kind").asStr).isNone then
      .str ("llm refused without a refusal.kind " ++
        "(llm_result promises the class that refused)")
    else .nil

/-- The published kinds of a failed call, and which of them say that asking
again could work. -/
def CALL_ERROR_RETRYABLE : List (String × Bool) :=
  [("transport", true), ("rate_limited", true), ("overloaded", true), ("server", true),
    ("auth", false), ("invalid_request", false), ("unknown", false)]

/-- The classification a failed call is reported with. -/
def callError (err caught : Lua) : Lua :=
  let detail := if err.isTable then err else .table [] []
  let kind := match (detail.get "kind").asStr with
    | some kind => if kind ∈ CALL_ERROR_RETRYABLE.map Prod.fst then kind else "unknown"
    | none => "unknown"
  let detail := detail.set "kind" (.str kind)
  let detail := match detail.get "retryable" with
    | .bool _ => detail
    | _ => detail.set "retryable" (.bool ((CALL_ERROR_RETRYABLE.lookup kind).getD false))
  let detail := match detail.get "message" with
    | .str _ => detail
    | _ => detail.set "message" (.str (vm.tostring err))
  if caught.isTable && (caught.get "traced").truthy then
    detail.set "traceback" (caught.get "traceback")
  else detail

/-! ### Tools -/

/-- What was decided about a `tool_use` block. -/
inductive Decision where
  | run
  | deny (reason : Option String)
  deriving DecidableEq

/-- Read a policy's answer: a decision, or what is wrong with it. -/
def readDecision (decided reason : Lua) : Except Lua Decision :=
  match decided with
  | .nil => .ok .run
  | .str "run" => .ok .run
  | .str "deny" =>
      -- anything but a string that says something is left out
      match reason with
      | .str why => .ok (.deny (if why = "" then none else some why))
      | _ => .ok (.deny none)
  | decided =>
      .error (.str ("tool_policy returned " ++
        (match decided with
          | .str s => Quoted.quoted s
          | v => v.type) ++ " (a decision must be nil, \"run\" or \"deny\")"))

/-- Ask the policy about one block.  A policy that raises denies. -/
def decideTool (policy : Bool) (block out : Lua) : ShellM (Except Lua Decision) := do
  if !policy then return .ok .run
  match ← pcall (call (.toolPolicy block out)) with
  | .error raised => return .ok (.deny (some ("policy raised: " ++ vm.tostring raised)))
  | .ok (decided, reason) => return readDecision decided reason

/-- Decide every `tool_use` block; nothing has run. -/
def decideAll (policy : Bool) (out : Lua) :
    List Lua → ShellM (Except Lua (List (Lua × Decision)))
  | [] => return .ok []
  | block :: rest => do
      let type ← ExceptT.mk (pure (block.index "type"))
      if type.eq (.str "tool_use") then
        match ← decideTool vm policy block out with
        | .error problem => return .error problem
        | .ok decision =>
            match ← decideAll policy out rest with
            | .error problem => return .error problem
            | .ok planned => return .ok ((block, decision) :: planned)
      else decideAll policy out rest

/-- A tool's name where a text is built around it. -/
def nameText (name : Lua) : ShellM String :=
  match name with
  | .str s => return s
  | .num n => return vm.tostring (.num n)
  | v => raise (.str ("attempt to concatenate a " ++ v.type ++ " value"))

/-- The tool of this name, if it has a handler. -/
def Device.handles (device : Device) (name : Lua) : Bool :=
  match name with
  | .str s => ((device.tools.getD []).lookup s).elim false ToolEntry.handler
  | _ => false

def toolCallEvent (block : Lua) : Lua :=
  record [("kind", .str "tool_call"),
    ("data", record [("call_id", block.get "id"), ("name", block.get "name"),
      ("args", (block.get "input").orElse (.table [] []))])]

/-- A tool that answered nothing answered the empty string. -/
def toolResultEvent (block : Lua) (ok : Bool) (result : Lua) : Lua :=
  record [("kind", .str "tool_result"),
    ("data", record [("call_id", block.get "id"), ("ok", .bool ok),
      ("result", if result.isNil then .str "" else result)])]

/-- What a planned block comes to: whether it went well, and its result. -/
def dispatch (device : Device) (block : Lua) (decision : Decision) : ShellM (Bool × Lua) := do
  let name := block.get "name"
  match decision with
  | .deny reason =>
      let text ← nameText vm name
      return (false, .str ("tool '" ++ text ++ "' denied by policy" ++
        reason.elim "" fun why => ": " ++ why))
  | .run =>
      if !device.handles name then
        let text ← nameText vm name
        return (false, .str ("tool '" ++ text ++ "' not found"))
      else
        -- a block without input calls its tool with an empty table
        let args := (block.get "input").orElse (.table [] [])
        match ← pcall (call (.handler (name.asStr.getD "") args)) with
        | .ok (result, _) => return (true, result)
        | .error raised =>
            let text ← nameText vm name
            return (false, .str ("tool '" ++ text ++ "' raised: " ++ vm.tostring raised))

/-- Run the planned blocks, each pair recorded around its call. -/
def runPlanned (device : Device) (beatId : Lua) : List (Lua × Decision) → ShellM (List Lua)
  | [] => return []
  | (block, decision) :: rest => do
      let _ ← recordEvent vm (withBeat (toolCallEvent block) beatId)
      let (ok, result) ← dispatch vm device block decision
      let _ ← recordEvent vm (withBeat (toolResultEvent block ok result) beatId)
      let summary ← runPlanned device beatId rest
      return record [("call_id", block.get "id"), ("name", block.get "name"),
        ("ok", .bool ok)] :: summary

/-- Run the `tool_use` blocks of a response: decide them all, then run them. -/
def executeTools (device : Device) (out beatId : Lua) : ShellM (Except Lua (List Lua)) := do
  let blocks ← ExceptT.mk (pure ((out.get "content").orElse (.table [] [])).ipairs)
  match ← decideAll vm device.toolPolicy out blocks with
  | .error problem => return .error problem
  | .ok planned => return .ok (← runPlanned vm device beatId planned)

/-! ### The beat -/

/-- The filters, in order; the first that fails ends the beat. -/
def filterChain : List Nat → Lua → ShellM (Except Outcome Lua)
  | [], request => return .ok request
  | i :: rest, request => do
      match ← xpcall vm (.filter i request) with
      | .error caught =>
          return .error (.err "filter" (raisedDetail (raisedText vm caught) caught))
      | .ok (filtered, _) =>
          if !filtered.isTable then
            return .error (.err "filter" (.str ("filter #" ++ toString i ++ " returned " ++
              filtered.type ++ " (a filter must return the request table)")))
          else filterChain rest filtered

/-- A whole number, at least one. -/
def isCost : Lua → Bool
  | .num (.int n) => 1 ≤ n
  | .num (.float q) => 1 ≤ q ∧ q.den = 1
  | _ => false

def llmRequestEvent (request report : Lua) : Lua :=
  record [("kind", .str "llm_request"),
    ("data", record [("request", request),
      ("window", if report.isTable then report else .nil)])]

def llmResponseEvent (resp : Lua) : Lua :=
  record [("kind", .str "llm_response"),
    ("data", record [("content", resp.get "content"), ("usage", resp.get "usage"),
      ("stop_reason", resp.get "stop_reason"), ("finish_reason", resp.get "finish_reason")])]

def llmCallFailedEvent (classified : Lua) : Lua :=
  record [("kind", .str "llm_call_failed"),
    ("data", record [("error", classified.get "message"), ("kind", classified.get "kind"),
      ("retryable", classified.get "retryable"),
      ("retry_after", classified.get "retry_after"), ("status", classified.get "status")])]

/-- The call did not come off: note it, and say which of the two failures it
is. -/
def callFailed (beatId reason raised : Lua) : ShellM Outcome := do
  let classified := callError vm reason raised
  assertDev vm classified "knl_call_error"
  match ← pcall (recordEvent vm (withBeat (llmCallFailedEvent classified) beatId)) with
  | .error noteErr =>
      let detail ← readError vm noteErr
      emit vm (.err "state" (detail.set "cause" (classified.get "message")))
  | .ok _ => emit vm (.err "call" classified)

/-- The model answered: record it, and run its tools. -/
def answered (device : Device) (beatId resp : Lua) : ShellM Outcome := do
  match ← pcall (recordEvent vm (withBeat (llmResponseEvent resp) beatId)) with
  | .error respErr => emit vm (.err "state" (← readError vm respErr))
  | .ok _ =>
      let resp := resp.set "beat" beatId
      if (resp.get "status").eq (.str "refused") then
        emit vm (.refused ((resp.get "refusal").get "kind") resp)
      else
        match ← pcall (executeTools vm device resp beatId) with
        | .error raised => emit vm (.err "state" (← readError vm raised))
        | .ok (.error problem) => emit vm (.err "conf" problem)
        | .ok (.ok summary) => emit vm (.ok (resp.set "tools" (array summary)))

/-- Record the request, and call the llm with it. -/
def callLlm (device : Device) (beatId request report : Lua) : ShellM Outcome := do
  match ← pcall (recordEvent vm (withBeat (llmRequestEvent request report) beatId)) with
  | .error recErr => emit vm (.err "state" (← readError vm recErr))
  | .ok _ =>
      match ← xpcall vm (.llm request) with
      | .error raised =>
          callFailed vm beatId (.str ("llm raised: " ++ raisedText vm raised)) raised
      | .ok (resp, berr) =>
          let reason :=
            -- a response is held to the contract; without one the port's own error is the reason
            if resp.isTable then llmContractViolation vm resp
            else berr.orElse (llmContractViolation vm resp)
          if reason.isNil then answered vm device beatId resp
          else callFailed vm beatId reason .nil

/-- Reserve before anything is recorded or called. -/
def reserveAndCall (device : Device) (beatId request report : Lua) : ShellM Outcome := do
  match ← xpcall vm (.cost request) with
  | .error caught =>
      emit vm (.err "conf" (raisedDetail ("cost failed: " ++ raisedText vm caught) caught))
  | .ok (amount, _) =>
      if !isCost amount then
        emit vm (.err "conf" (.str ("cost must return a whole number >= 1, got " ++
          vm.tostring amount)))
      else
        match ← pcall (call (.reserve amount)) with
        | .error raised => emit vm (.err "state" (← readError vm raised))
        | .ok (granted, tag) =>
            -- refused by the budget: the beat stops before anything is on the record
            if !granted.truthy then emit vm (.stopped "budget" tag)
            else callLlm vm device beatId request report

/-- What a beat says of a read that stopped at the kernel's row cap. -/
def TRUNCATED : String :=
  "knl.beat: the history is longer than one read of it, and a fold over a " ++
    "truncated record would leave out the most recent events; page it with " ++
    "session:events(from) or fold a window (policy.window)"

/-- The request a beat is about to make: read, fold and filter. -/
def buildRequest (device : Device) : ShellM (Except Outcome (Lua × Lua)) := do
  match ← pcall (call .events) with
  | .error raised => return .error (.err "state" (← readError vm raised))
  | .ok (events, truncated) =>
      if truncated.truthy then
        return .error (.err "state" (record [("retryable", .bool false),
          ("message", .str TRUNCATED)]))
      else
        match ← xpcall vm (.fold events) with
        | .error caught =>
            return .error (.err "conf"
              (raisedDetail ("fold failed: " ++ raisedText vm caught) caught))
        | .ok (request, report) =>
            match ← filterChain vm (List.range' 1 device.filters) request with
            | .error outcome => return .error outcome
            | .ok request =>
                assertDev vm request "knl_request"
                return .ok (request, report)

/-- **One complete beat**, on a session and a device that are or are not what
they are taken for. -/
def beat (isSession isDevice : Bool) (device : Device) : ShellM Outcome := do
  if !isSession then
    emit vm (.err "conf" (.str
      "beat takes a knl session first (from knl.open / knl.resume)"))
  else if !isDevice then
    emit vm (.err "conf" (.str
      "beat takes a knl device second (build one with knl.device)"))
  else if !device.llm then
    emit vm (.err "conf" (.str
      "no llm in the device (knl.device{ llm = ... } / d:with{ llm = ... })"))
  else
    match ← pcall (call .newBeatId) with
    | .error raised => emit vm (.err "conf" (.str ("no beat id: " ++ vm.tostring raised)))
    | .ok (beatId, _) =>
        -- the host minted something that is no string
        if beatId.asStr.isNone then
          emit vm (.err "conf" (.str ("no beat id: " ++ vm.tostring beatId)))
        else
          match ← buildRequest vm device with
          | .error outcome => emit vm outcome
          | .ok (request, report) => reserveAndCall vm device beatId request report

end Vm

end AgentBlock.Shell
