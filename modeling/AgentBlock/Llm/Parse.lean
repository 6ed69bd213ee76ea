/-
AgentBlock/Llm/Parse.lean

A provider's answer read into content blocks, a stop reason and counts, for the
two dialects; and what each calls a refusal.

Reading a field of a value that has none raises: none of the fields read here
is guarded but by `or`.
-/
import AgentBlock.Lib.Split
import AgentBlock.Llm.Proto

namespace AgentBlock.Llm

/-- An empty table. -/
def emptyTable : Lua := .table [] []

/-- The five counts. -/
structure Usage where
  inputTokens : LuaNumber
  outputTokens : LuaNumber
  cacheCreationInputTokens : LuaNumber
  cacheReadInputTokens : LuaNumber
  thinkingTokens : LuaNumber

structure Decoded where
  content : Lua
  stopReason : Lua
  finishReason : Lua := .nil
  refusal : Lua := .nil
  stopDetails : Lua
  stopSequence : Lua := .nil
  contextManagement : Lua := .nil
  usage : Usage

/-- A count, or zero where there is none. -/
def countOf (v : Lua) : LuaNumber := v.tonumber.getD (.int 0)

/-! ### Anthropic -/

namespace Anthropic

def parse (raw : Lua) : Except Lua (Except String Decoded) :=
  if !raw.truthy then return .error "invalid anthropic response: empty body"
  else do
    let content ← raw.index "content"
    if !content.truthy then return .error "anthropic response missing content blocks"
    else
      let u := (raw.get "usage").orElse emptyTable
      let details := (← u.index "output_tokens_details").orElse emptyTable
      let thinking ← details.index "thinking_tokens"
      return .ok {
        content
        stopReason := raw.get "stop_reason"
        stopDetails := raw.get "stop_details"
        stopSequence := raw.get "stop_sequence"
        contextManagement := raw.get "context_management"
        usage := {
          inputTokens := countOf (u.get "input_tokens")
          outputTokens := countOf (u.get "output_tokens")
          cacheCreationInputTokens := countOf (u.get "cache_creation_input_tokens")
          cacheReadInputTokens := countOf (u.get "cache_read_input_tokens")
          thinkingTokens := countOf thinking } }

end Anthropic

/-! ### OpenAI -/

/-- `#v`. -/
def Host.length (host : Host) : Lua → Except Lua Nat
  | .table items _ => .ok (host.len items)
  | .str s => .ok s.utf8ByteSize
  | v => .error (.str ("attempt to get length of a " ++ v.type ++ " value"))

/-- `v and #v or 0`. -/
def Host.lengthOrZero (host : Host) (v : Lua) : Except Lua Nat :=
  if v.truthy then host.length v else return 0

/-- `v and v[key]`. -/
def andIndex (v : Lua) (key : String) : Except Lua Lua :=
  if v.truthy then v.index key else return v

/-- `v[1]`, of a table or a string. -/
def firstOf : Lua → Lua
  | .table (v :: _) _ => v
  | _ => .nil

/-- The values a loop over `ipairs(v)` takes, where an array may hold `nil`. -/
def elements : Lua → Except Lua (List Lua)
  | .table items _ => .ok (items.takeWhile fun v => !v.isNil)
  | .str _ => .ok []
  | v => .error v.indexError

namespace Openai

def mapFinishReason (host : Host) (finishReason : Lua) : String :=
  if finishReason.eq (.str "stop") then "end_turn"
  else if finishReason.eq (.str "tool_calls") then "tool_use"
  else if finishReason.eq (.str "length") then "max_tokens"
  else host.tostring (finishReason.orElse (.str "end_turn"))

/-- The reasoning within a text, up to its last closing tag, and the rest. -/
def splitThink (text : List Char) : Option (List Char × List Char) :=
  (Split.once "</think>".toList.reverse text.reverse).map fun p =>
    let (after, before) := (p.1.reverse, p.2.reverse)
    let (thinking, rest) := match Split.once "<think>".toList before with
      | some (left, right) => (right, left ++ after)
      | none => (before, after)
    (Split.trim Numeral.isSpace thinking, rest.dropWhile Numeral.isSpace)

/-- A text that is there and not empty. -/
def textOf (v : Lua) : Option String := v.asStr.filter fun s => s ≠ ""

/-- What a debug line says of the message, before it says it of the calls. -/
def dumpMessage (host : Host) (content toolCalls : Lua) : Except Lua Unit := do
  let _ ← host.lengthOrZero content
  let _ ← host.length toolCalls
  match content.orElse (.str "") with
  | .str _ => return ()
  | _ => throw (.str "attempt to call a nil value (method 'sub')")

def dumpCall (toolCall : Lua) : Except Lua Unit := do
  let fn := (← toolCall.index "function").orElse emptyTable
  let _ ← fn.index "name"
  return ()

/-- What `AGENT_BLOCK_DEBUG_RAW` has logged. -/
def dump (host : Host) (content toolCalls : Lua) : Except Lua Unit :=
  if host.debugRaw then do
    dumpMessage host content toolCalls
    (← elements toolCalls).forM dumpCall
  else return ()

/-- The id of call number `i` that was given none. -/
def syntheticId (i : Nat) : String :=
  let digits := (Nat.toDigits 10 i)
  String.ofList ('t' :: 'c' :: (List.replicate (7 - digits.length) '0' ++ digits))

/-- The arguments of a call, when they are an object or decode to one. -/
def inputOf (host : Host) (rawArgs : Lua) : Option Lua :=
  if rawArgs.isTable then some rawArgs
  else match rawArgs.orElse (.str "{}") with
    | .str s =>
        match host.decode s with
        | .ok parsed => if parsed.isTable then some parsed else none
        | .error _ => none
    | .num n =>
        -- A number is decoded as the text it is.
        match host.decode (host.tostring (.num n)) with
        | .ok parsed => if parsed.isTable then some parsed else none
        | .error _ => none
    | _ => none

/-- The id of call number `i`. -/
def callId (i : Nat) (toolCall : Lua) : Lua :=
  let id := toolCall.get "id"
  if id.isNil ∨ id.eq (.str "") then .str (syntheticId i) else id

/-- The block of call number `i`. -/
def toolUse (host : Host) (i : Nat) (toolCall : Lua) : Except Lua Lua := do
  let fn := (← toolCall.index "function").orElse emptyTable
  let rawArgs ← fn.index "arguments"
  let named := [("type", .str "tool_use"), ("id", callId i toolCall),
    ("name", (fn.get "name").orElse (.str ""))]
  match inputOf host rawArgs with
  | some input => return .record (named ++ [("input", input)])
  | none => return .record (named ++ [("input", emptyTable),
      ("is_error_hint", .str "arguments_parse_failed")])

/-- The blocks of the calls, the first of which is number `i`. -/
def toolUses (host : Host) : Nat → List Lua → Except Lua (List Lua)
  | _, [] => return []
  | i, toolCall :: rest => do
      let block ← toolUse host i toolCall
      return block :: (← toolUses host (i + 1) rest)

/-- The reasoning of a message, from the field that has any. -/
def reasoningOf (message : Lua) : Option String :=
  (textOf (message.get "reasoning_content")).or (textOf (message.get "reasoning"))

/-- The reasoning of a message and the text beside it: tags left in the text are
read where no field has the reasoning. -/
def reasoningAndText (message : Lua) : Option String × Lua :=
  let content := message.get "content"
  match reasoningOf message, content.asStr.bind fun text => splitThink text.toList with
  | none, some (thinking, rest) =>
      (some (String.ofList thinking), .str (String.ofList rest))
  | reasoning, _ => (reasoning, content)

/-- The blocks of a message, before those of its calls. -/
def proseOf (message : Lua) : List Lua :=
  let (reasoning, text) := reasoningAndText message
  (reasoning.map fun s => Lua.record [("type", .str "thinking"), ("thinking", .str s)]).toList ++
    if text.truthy ∧ text.eq (.str "") = false then
      [.record [("type", .str "text"), ("text", text)]]
    else []

/-- The counts of an answer. -/
def usageOf (raw : Lua) : Except Lua Usage := do
  let u := (raw.get "usage").orElse emptyTable
  let outDetails := (← u.index "completion_tokens_details").orElse emptyTable
  let inDetails := (u.get "prompt_tokens_details").orElse emptyTable
  let reasoning ← outDetails.index "reasoning_tokens"
  let cached ← inDetails.index "cached_tokens"
  return {
    inputTokens := countOf (u.get "prompt_tokens")
    outputTokens := countOf (u.get "completion_tokens")
    cacheCreationInputTokens := countOf (inDetails.get "cache_write_tokens")
    cacheReadInputTokens := countOf cached
    thinkingTokens := countOf reasoning }

/-- What is read of a choice and its message, once that is there. -/
def parseMessage (host : Host) (raw choice message : Lua) : Except Lua Decoded := do
  let toolCalls := (← message.index "tool_calls").orElse emptyTable
  dump host (message.get "content") toolCalls
  let blocks ← toolUses host 1 (← elements toolCalls)
  let usage ← usageOf raw
  let finishReason := choice.get "finish_reason"
  let refusal := message.get "refusal"
  return {
    content := .array (proseOf message ++ blocks)
    -- a refusal that is a text outranks the reason the choice ends with
    stopReason := .str (if (textOf refusal).isSome then "refusal" else mapFinishReason host finishReason)
    finishReason := match finishReason with
      | .str s => .str s
      | _ => .nil
    refusal
    stopDetails :=
      if refusal.truthy then .record [("type", .str "refusal"), ("explanation", refusal)] else .nil
    usage }

def parseChoice (host : Host) (raw choice : Lua) : Except Lua (Except String Decoded) := do
  let message ← andIndex choice "message"
  if !message.truthy then return .error "invalid OpenAI response: missing choices[0].message"
  else return .ok (← parseMessage host raw choice message)

def parse (host : Host) (raw : Lua) : Except Lua (Except String Decoded) := do
  let choices ← andIndex raw "choices"
  let n ← host.lengthOrZero choices
  if n = 0 then return .error "invalid OpenAI response: missing choices"
  else parseChoice host raw (firstOf choices)

end Openai

/-! ### Refusals -/

inductive RefusalKind where
  | model
  | contentFilter
  deriving DecidableEq

structure Refusal where
  kind : RefusalKind
  detail : Option String := none

inductive Status where
  | ok
  | refused
  deriving DecidableEq

/-- A Port's judgement of an answer. -/
structure Verdict where
  status : Status
  refusal : Option Refusal

def Anthropic.classify (result : Decoded) : Verdict :=
  if result.stopReason.eq (.str "refusal") ∨
      (result.stopDetails.isTable ∧ (result.stopDetails.get "type").eq (.str "refusal")) then
    ⟨.refused, some { kind := .model }⟩
  else ⟨.ok, none⟩

def Openai.classify (result : Decoded) : Verdict :=
  let refusalMsg := Openai.textOf result.refusal
  if refusalMsg.isSome ∨ result.stopReason.eq (.str "refusal") then
    ⟨.refused, some { kind := .model, detail := refusalMsg }⟩
  else if result.stopReason.eq (.str "content_filter") then
    ⟨.refused, some { kind := .contentFilter }⟩
  else ⟨.ok, none⟩

end AgentBlock.Llm
