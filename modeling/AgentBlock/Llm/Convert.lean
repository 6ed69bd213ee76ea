/-
AgentBlock/Llm/Convert.lean

The history of a conversation as an OpenAI-compatible server takes it.

The history has content-block arrays; the wire has a flat list, with the calls
on the assistant's message and each result a message of its own.  Templates that
only take a strictly alternating transcript get one that is flattened further.
-/
import AgentBlock.Llm.Parse

namespace AgentBlock.Llm.Openai

/-! ### What is sent -/

/-- One `tool_calls` entry, of type `function`. -/
structure OaiToolCall where
  id : Lua
  name : Lua
  arguments : String

structure OaiMessage where
  role : Lua
  content : Lua := .nil
  toolCalls : Option (List OaiToolCall) := none
  toolCallId : Lua := .nil

/-! ### `table.concat` -/

/-- Element `i` of what is joined: numbers are written out. -/
def joined (host : Host) (i : Nat) : Lua → Except Lua String
  | .str s => .ok s
  | .num n => .ok (host.tostring (.num n))
  | _ => .error (.str ("invalid value (at index " ++ Nat.repr i ++ ") in table for 'concat'"))

/-- The elements, the first of which is number `i`. -/
def joinedFrom (host : Host) : Nat → List Lua → Except Lua (List String)
  | _, [] => return []
  | i, v :: rest => do
      let s ← joined host i v
      return s :: (← joinedFrom host (i + 1) rest)

def concat (host : Host) (parts : List Lua) (sep : String) : Except Lua String := do
  return sep.intercalate (← joinedFrom host 1 parts)

/-! ### Blocks -/

def isType (type : String) (block : Lua) : Bool := (block.get "type").eq (.str type)

/-- The texts and the calls of an assistant's blocks. -/
def assistantParts (host : Host) : List Lua → Except Lua (List Lua × List OaiToolCall)
  | [] => return ([], [])
  | block :: rest => do
      let type ← block.index "type"
      if type.eq (.str "text") then do
        let text ← block.index "text"
        let (texts, calls) ← assistantParts host rest
        return (text.orElse (.str "") :: texts, calls)
      else if type.eq (.str "tool_use") then do
        let arguments ← host.encode ((block.get "input").orElse emptyTable)
        let (texts, calls) ← assistantParts host rest
        return (texts, { id := block.get "id", name := block.get "name", arguments } :: calls)
      else assistantParts host rest

/-- The content of an assistant's message: none where there is no text. -/
def textContent (host : Host) (texts : List Lua) : Except Lua Lua :=
  if texts.isEmpty then return .nil
  else do return .str (← concat host texts "\n")

/-- An assistant's message. -/
def convertAssistant (host : Host) (blocks : List Lua) : Except Lua OaiMessage := do
  let (texts, calls) ← assistantParts host blocks
  let content ← textContent host texts
  return {
    role := .str "assistant", content
    toolCalls := if calls.isEmpty then none else some calls }

def hasToolResult : List Lua → Except Lua Bool
  | [] => return false
  | block :: rest => do
      let type ← block.index "type"
      if type.eq (.str "tool_result") then return true else hasToolResult rest

/-- A message for each result. -/
def toolMessages (host : Host) : List Lua → Except Lua (List OaiMessage)
  | [] => return []
  | block :: rest => do
      let type ← block.index "type"
      let messages ← toolMessages host rest
      if type.eq (.str "tool_result") then return {
          role := .str "tool"
          toolCallId := block.get "tool_use_id"
          content := .str (host.tostring ((block.get "content").orElse (.str ""))) } :: messages
      else return messages

/-- The texts of a user's blocks. -/
def userParts : List Lua → Except Lua (List Lua)
  | [] => return []
  | block :: rest => do
      let type ← block.index "type"
      let texts ← userParts rest
      if type.eq (.str "text") then return (block.get "text").orElse (.str "") :: texts
      else return texts

/-- A user's blocks: the results where there are any, and else the texts. -/
def convertUser (host : Host) (blocks : List Lua) : Except Lua (List OaiMessage) := do
  if ← hasToolResult blocks then toolMessages host blocks
  else do
    let texts ← userParts blocks
    let content ← concat host texts "\n"
    return [{ role := .str "user", content := .str content }]

/-! ### Messages -/

def convertMessage (host : Host) (msg : Lua) : Except Lua (List OaiMessage) := do
  let content ← msg.index "content"
  let role := msg.get "role"
  match content with
  | .str s => return [{ role, content := .str s }]
  | .table blocks fields =>
      if role.eq (.str "assistant") then return [← convertAssistant host blocks]
      else if role.eq (.str "user") then convertUser host blocks
      else return [{ role, content := .table blocks fields }]
  | _ => return []

def convertEach (host : Host) : List Lua → Except Lua (List OaiMessage)
  | [] => return []
  | msg :: rest => do
      let group ← convertMessage host msg
      return group ++ (← convertEach host rest)

/-- The system prompt, where there is one that says anything. -/
def systemMessages (system : Lua) : List OaiMessage :=
  if system.truthy ∧ system.eq (.str "") = false then
    [{ role := .str "system", content := system }]
  else []

def convertMessages (host : Host) (messages system : Lua) : Except Lua (List OaiMessage) := do
  let msgs ← elements (messages.orElse emptyTable)
  return systemMessages system ++ (← convertEach host msgs)

/-! ### Strict alternation -/

/-- What a transcript shows of a message that is not text yet. -/
def lineText (host : Host) : Lua → Except Lua String
  | .str s => .ok s
  | v => if v.truthy then host.encode v else .ok ""

/-- A turn that only carried calls, as the calls' names. -/
def callLine (host : Host) (calls : List OaiToolCall) : Except Lua String := do
  let names ← concat host (calls.map fun tc => tc.name.orElse (.str "?")) ", "
  return "[tool call] " ++ names

/-- The role and the line of a message in a transcript. -/
def lineOf (host : Host) (msg : OaiMessage) : Except Lua (Lua × String) :=
  if msg.role.eq (.str "tool") then
    return (.str "user", "[tool result] " ++ host.tostring (msg.content.orElse (.str "")))
  else do
    let line ← lineText host msg.content
    let role := if msg.role.eq (.str "system") then .str "user" else msg.role
    match msg.toolCalls with
    | some calls =>
        if role.eq (.str "assistant") ∧ line = "" then return (role, ← callLine host calls)
        else return (role, line)
    | none => return (role, line)

/-- A turn of a transcript. -/
structure Line where
  role : Lua
  content : String

/-- One turn more; a line of the role that spoke last is added to its turn. -/
def addTurn (out : List Line) (role : Lua) (line : String) : List Line :=
  match out.getLast? with
  | some prev =>
      if prev.role.eq role then
        out.dropLast ++ [{ prev with content := prev.content ++ "\n\n" ++ line }]
      else out ++ [{ role, content := line }]
  | none => [{ role, content := line }]

def flattenFrom (host : Host) : List Line → List OaiMessage → Except Lua (List Line)
  | out, [] => return out
  | out, msg :: rest => do
      let (role, line) ← lineOf host msg
      flattenFrom host (addTurn out role line) rest

def flattenForStrictAlternation (host : Host) (messages : List OaiMessage) :
    Except Lua (List Line) :=
  flattenFrom host [] messages

end AgentBlock.Llm.Openai
