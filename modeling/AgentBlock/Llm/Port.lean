/-
AgentBlock/Llm/Port.lean

The Port a device carries as its model: the answer of a call as data, or a
`call_error` that names what became of it.
-/
import AgentBlock.Llm.Parse

namespace AgentBlock.Llm

inductive Port where
  | anthropic
  | openai
  deriving DecidableEq

def Port.parse (host : Host) : Port → Lua → Except Lua (Except String Decoded)
  | anthropic => Anthropic.parse
  | openai => Openai.parse host

def Port.classify : Port → Decoded → Verdict
  | anthropic => Anthropic.classify
  | openai => Openai.classify

/-! ### Call errors -/

inductive CallErrorKind where
  | transport
  | rateLimited
  | overloaded
  | server
  | auth
  | invalidRequest
  | unknown
  deriving DecidableEq

/-- Asking again could work. -/
def CallErrorKind.retryable : CallErrorKind → Bool
  | transport => true
  | rateLimited => true
  | overloaded => true
  | server => true
  | auth => false
  | invalidRequest => false
  | unknown => false

structure CallError where
  kind : CallErrorKind
  retryable : Bool
  retryAfter : Option LuaNumber
  message : String
  status : Option Int

/-- The kinds of the statuses that are named. -/
def statusKind (status : Int) : Option CallErrorKind :=
  if status = 400 ∨ status = 404 ∨ status = 413 ∨ status = 422 then some .invalidRequest
  else if status = 401 ∨ status = 403 then some .auth
  else if status = 408 ∨ status = 504 then some .transport
  else if status = 429 then some .rateLimited
  else if status = 503 ∨ status = 529 then some .overloaded
  else none

def kindOfStatus : Option Int → CallErrorKind
  | none => .unknown
  | some status =>
      match statusKind status with
      | some kind => kind
      | none => if status ≥ 500 then .server else .unknown

def callError (kind : CallErrorKind) (message : String) (seen : Seen) : CallError where
  kind := kind
  retryable := kind.retryable
  retryAfter := seen.retryAfter
  message := message
  status := seen.status

/-! ### Results -/

/-- The three counts of a result. -/
structure Counts where
  inputTokens : LuaNumber
  outputTokens : LuaNumber
  thinkingTokens : LuaNumber

structure LlmResult where
  content : Lua
  usage : Counts
  stopReason : Lua
  finishReason : Lua
  status : Status
  refusal : Option Refusal

/-- The content as it came; one with nothing in it is an empty array. -/
def responseBlocks (host : Host) (content : Lua) : Lua :=
  match content with
  | .table items fields => if host.len items = 0 then .array [] else .table items fields
  | content => content

/-- A shape that does not hold, as a raise tells it. -/
def violation (path expected : String) (got : Lua) (hint : String) : Lua :=
  .str ("shape violation at " ++ path ++ ": expected " ++ expected ++ ", got " ++ got.type ++
    " (ctx: " ++ hint ++ ")")

/-- The blocks of a content are tables, from number `i`. -/
def assertBlocks (items : List Lua) (i : Nat) : Nat → Except Lua Unit
  | 0 => return ()
  | n + 1 => do
      let block := items.getD (i - 1) .nil
      if !block.isTable then
        throw (violation ("$.content[" ++ toString i ++ "]") "table" block "llm_result")
      else assertBlocks items (i + 1) n

/-- A field that has to be a string. -/
def assertString (path : String) (v : Lua) (hint : String) : Except Lua Unit :=
  if v.asStr.isNone then throw (violation path "string" v hint) else return ()

/-- A field that has to be a string where it is there. -/
def assertOptional (path : String) (v : Lua) (hint : String) : Except Lua Unit :=
  if v.isNil then return () else assertString path v hint

def assertContent (host : Host) : Lua → Except Lua Unit
  | .table items _ => assertBlocks items 1 (host.len items)
  | v => throw (violation "$.content" "table (array)" v "llm_result")

/-- `assert_dev` of the result, whose every other field is what it has to be. -/
def assertResult (host : Host) (result : LlmResult) : Except Lua Unit := do
  assertContent host result.content
  assertOptional "$.finish_reason" result.finishReason "llm_result"
  assertOptional "$.stop_reason" result.stopReason "llm_result"

/-- `assert_dev` of a block: one that makes a call names it. -/
def assertToolUse (block : Lua) : Except Lua Unit :=
  if block.isTable ∧ (block.get "type").eq (.str "tool_use") then do
    assertString "$.id" (block.get "id") "llm_result content tool_use"
    assertString "$.name" (block.get "name") "llm_result content tool_use"
  else return ()

def assertDev (host : Host) (result : LlmResult) : Except Lua Unit :=
  if host.dev then do
    assertResult host result
    (← elements result.content).forM assertToolUse
  else return ()

/-! ### A call -/

/-- What came of a call, and how often it was sent. -/
structure Call where
  attempts : Nat
  answer : Except Lua (LlmResult ⊕ CallError)

/-- The result of a decoded answer. -/
def mapped (host : Host) (port : Port) (result : Decoded) : LlmResult :=
  let verdict := port.classify result
  { content := responseBlocks host result.content
    usage := {
      inputTokens := countOf (.num result.usage.inputTokens)
      outputTokens := countOf (.num result.usage.outputTokens)
      thinkingTokens := countOf (.num result.usage.thinkingTokens) }
    stopReason := result.stopReason
    finishReason := result.finishReason
    status := verdict.status
    refusal := verdict.refusal }

/-- What an answer that was parsed becomes. -/
def mapParsed (host : Host) (port : Port) (seen : Seen) :
    Except String Decoded → Except Lua (LlmResult ⊕ CallError)
  | .error perr => return .inr (callError .unknown perr seen)
  | .ok result =>
      if !result.content.isTable then
        return .inr (callError .unknown "unreadable content: not an array" seen)
      else do
        assertDev host (mapped host port result)
        return .inl (mapped host port result)

/-- Read a decoded answer. -/
def readAnswer (host : Host) (port : Port) (raw : Lua) (seen : Seen) :
    Except Lua (LlmResult ⊕ CallError) := do
  mapParsed host port seen (← port.parse host raw)

/-- The function `LLMPort:open` returns, on a request that was built. -/
def openPort (host : Host) (port : Port) (maxRetries : Option Nat) (timeout : Option LuaNumber)
    (built : Except String Wire) : Call :=
  match built with
  | .error berr => ⟨0, .ok (.inr (callError .invalidRequest berr {}))⟩
  | .ok wire =>
      let sent := transport host wire maxRetries timeout
      match sent.answer with
      | .error raised =>
          ⟨sent.attempts, .ok (.inr (callError .transport
            ("http transport error: " ++ host.tostring raised) sent.seen))⟩
      | .ok (.error terr) =>
          ⟨sent.attempts, .ok (.inr (callError (kindOfStatus sent.seen.status) terr sent.seen))⟩
      | .ok (.ok raw) =>
          if !raw.truthy then
            ⟨sent.attempts, .ok (.inr (callError (kindOfStatus sent.seen.status)
              (host.tostring .nil) sent.seen))⟩
          else ⟨sent.attempts, readAnswer host port raw sent.seen⟩

end AgentBlock.Llm
