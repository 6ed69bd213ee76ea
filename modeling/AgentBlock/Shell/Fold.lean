/-
AgentBlock/Shell/Fold.lean

The default fold: from the events of a session to the request a beat sends.

The fold walks the events once.  It keeps the ids the last assistant message
called tools under (`pending`), the ids a recorded result has answered since
(`answered`), and the results it has not put into a message yet (`batch`).
What renders a result that is not a string, `std.json.encode`, is a parameter.
-/
import AgentBlock.Lib.Lua
import Mathlib.Data.List.Sort
import Mathlib.Data.String.Basic

namespace AgentBlock.Shell

open Lua (record array)

/-! ### Devices -/

/-- One tool a device offers; of its handler, whether it has one. -/
structure ToolEntry where
  description : Lua
  inputSchema : Lua
  handler : Bool

/-- The policy half of a beat.  Of a function it carries, whether it is there;
of the filters, how many. -/
structure Device where
  llm : Bool
  tools : Option (List (String × ToolEntry))
  toolPolicy : Bool
  filters : Nat
  system : Lua

/-- The wire declarations of tools, by name. -/
def wireTools (tools : List (String × ToolEntry)) : Lua :=
  array ((tools.insertionSort fun a b => a.1 ≤ b.1).map fun tool =>
    record [("name", .str tool.1), ("description", tool.2.description),
      ("input_schema", tool.2.inputSchema)])

/-! ### Messages -/

section Fold

variable (encode : Lua → Except Lua String)

/-- A result as request text: a string as it is, any other value encoded. -/
def resultText (result : Lua) : Except Lua String :=
  match result with
  | .str s => .ok s
  | result => encode result

/-- A stored result, as the block that answers the call it names. -/
def toolResultBlock (data : Lua) : Except Lua Lua := do
  let text ← resultText encode (data.get "result")
  .ok (record [("type", .str "tool_result"), ("tool_use_id", data.get "call_id"),
    ("content", .str text),
    ("is_error", if Lua.eq (data.get "ok") (.bool false) then .bool true else .nil)])

/-- The block that closes a call no result was recorded for. -/
def interruptedBlock (id : Lua) : Lua :=
  record [("type", .str "tool_result"), ("tool_use_id", id),
    ("content", .str "tool execution was interrupted before a result was recorded"),
    ("is_error", .bool true)]

def userMessage (content : Lua) : Lua :=
  record [("role", .str "user"), ("content", content)]

def assistantMessage (content : Lua) : Lua :=
  record [("role", .str "assistant"), ("content", content)]

/-- Where the fold is. -/
structure Folding where
  messages : List Lua := []
  batch : List Lua := []
  pending : List Lua := []
  answered : List Lua := []

namespace Folding

/-- Close the calls nothing answered. -/
def closeDangling (f : Folding) : Folding :=
  { f with
    batch := f.batch ++ (f.pending.filter fun id =>
      !f.answered.any fun a => a.eq id).map interruptedBlock
    pending := []
    answered := [] }

/-- Put the results that were collected into a message. -/
def flush (f : Folding) : Folding :=
  if f.batch.isEmpty then f
  else { f with messages := f.messages ++ [userMessage (array f.batch)], batch := [] }

def say (f : Folding) (message : Lua) : Folding :=
  { f with messages := f.messages ++ [message] }

/-- `answered[id] = true`, of an id that is there; no table has NaN for a key. -/
def answer (f : Folding) : Lua → Except Lua Folding
  | .nil => .ok f
  | .num .nan => .error (.str "index is NaN")
  | id => .ok { f with answered := f.answered ++ [id] }

/-- Put one result more beside those not yet in a message. -/
def collect (f : Folding) (block : Lua) : Folding :=
  { f with batch := f.batch ++ [block] }

end Folding

/-- The ids a response calls tools under, in the order of its blocks. -/
def toolUseIds : List Lua → Except Lua (List Lua)
  | [] => .ok []
  | block :: rest => do
      let type ← block.index "type"
      let id ← if type.eq (.str "tool_use") then block.index "id" else .ok .nil
      let ids ← toolUseIds rest
      .ok (if id.isNil then ids else id :: ids)

/-- One event of the fold; a kind it does not know is skipped. -/
def foldEvent (f : Folding) (ev : Lua) : Except Lua Folding := do
  let kind ← ev.index "kind"
  let data ← ev.index "data"
  -- an event with no `data` reads as an empty one
  let data := if data.isTable then data else .table [] []
  if kind.eq (.str "msg_user") then
    .ok (f.closeDangling.flush.say (userMessage (data.get "content")))
  else if kind.eq (.str "llm_response") then
    let content := data.get "content"
    let f := f.closeDangling.flush.say (assistantMessage content)
    match content with
    | .table blocks _ =>
        let ids ← toolUseIds blocks
        .ok { f with pending := f.pending ++ ids }
    | _ => .ok f
  else if kind.eq (.str "tool_result") then
    let f ← f.answer (data.get "call_id")
    let block ← toolResultBlock encode data
    .ok (f.collect block)
  else .ok f

/-- Every event, in order. -/
def foldEvents : Folding → List Lua → Except Lua Folding
  | f, [] => .ok f
  | f, ev :: rest => do
      let f ← foldEvent encode f ev
      foldEvents f rest

/-- The messages of a history. -/
def foldMessages (events : List Lua) : Except Lua (List Lua) := do
  let f ← foldEvents encode {} events
  .ok f.closeDangling.flush.messages

/-- **The default fold**: the request for a history, and what the device puts
beside it. -/
def fold (events : Lua) (device : Device) : Except Lua Lua := do
  let events ← (events.orElse (.table [] [])).ipairs
  let messages ← foldMessages encode events
  .ok (record [("messages", array messages), ("system", device.system),
    ("tools", device.tools.elim .nil wireTools)])

end Fold

end AgentBlock.Shell
