/-
AgentBlock/Llm/Proto.lean

The transport of a model call: a request is sent until it is answered with
something that asking again would not change.

What is not in Lua is in `Host`: the HTTP device, whose attempt number `i` has
the outcome `post _ i`, the JSON codec, the clock, and what `tostring` shows of
a value that is no string.  An array that JSON wrote may hold `nil`, and then
`#` answers any of its borders.
-/
import AgentBlock.Lib.Numeral
import Mathlib.Algebra.Order.Ring.Unbundled.Rat

namespace AgentBlock.Llm

/-! ### What the host does -/

/-- What `http.request` answers. -/
structure Response where
  status : Int
  headers : List (String × Lua)
  body : String

/-- What an adapter's build answers. -/
structure Wire where
  url : String
  headers : List (String × Lua)
  body : Lua

/-- What `http.request` is asked, beside the method. -/
structure RequestOpts where
  url : String
  headers : List (String × Lua)
  body : String
  timeout : LuaNumber

structure Host where
  post : RequestOpts → Nat → Except Lua Response
  /-- `std.task.sleep`, for so many milliseconds. -/
  sleep : Rat → Except Lua Unit
  encode : Lua → Except Lua String
  decode : String → Except Lua Lua
  /-- `#` of a table with these items. -/
  len : List Lua → Nat
  /-- What `tostring` shows of a value that is no string. -/
  shown : Lua → String
  /-- `AGENT_BLOCK_DEBUG_RAW` is set. -/
  debugRaw : Bool
  /-- `LSHAPE_CHECK` is set. -/
  dev : Bool

def Host.tostring (host : Host) : Lua → String
  | .str s => s
  | v => host.shown v

/-! ### Errors -/

/-- Codes that mean that the budget is spent. -/
def quotaCodes : List String := [
  "enforced_spend_limit_reached",
  "credit_balance_exhausted",
  "organization_spend_limit_exceeded",
  "project_spend_limit_exceeded",
  "organization_usage_limit_exceeded",
  "insufficient_quota"]

def isQuotaCode : Lua → Bool
  | .str s => s ∈ quotaCodes
  | _ => false

/-- What a failure means for whoever would ask again. -/
structure Classified where
  kind : String
  retryable : Bool
  retryAfter : Option LuaNumber
  code : Lua
  message : String

/-- The last header of this name, as a number. -/
def lastRetryAfter (headers : List (String × Lua)) : Option LuaNumber :=
  ((headers.filter fun h => h.1.toLower = "retry-after").getLast?.map Prod.snd).bind Lua.tonumber

/-- The kind of a status, and whether asking again can help. -/
def kindAndRetryable (status : Int) (code : Lua) : String × Bool :=
  if status = 429 then
    if isQuotaCode code then ("quota", false) else ("rate_limit", true)
  else if status = 408 ∨ status = 504 then ("timeout", true)
  else if status = 529 ∨ status = 503 ∨ status = 502 then ("overloaded", true)
  else if status ≥ 500 then ("server", true)
  else if status = 401 ∨ status = 403 then ("auth", false)
  else if status = 404 then ("not_found", false)
  else if status ≥ 400 then ("invalid_request", false)
  else ("unknown", false)

/-- The body of a failure, when it decodes to a table; else an empty one. -/
def decodedBody (host : Host) (body : String) : Lua :=
  if body = "" then .table [] []
  else match host.decode body with
    | .ok v => if v.isTable then v else .table [] []
    | .error _ => .table [] []

def classifyError (host : Host) (resp : Response) : Except Lua Classified := do
  let answered := decodedBody host resp.body
  let err := (answered.get "error").orElse (.table [] [])
  let code ← err.index "code"
  let details ← err.index "details"
  -- the code may stand in `details`, which is looked at only where there is none
  let code := if !code.truthy ∧ details.isTable then details.get "error_code" else code
  let message ← err.index "message"
  let message := (message.orElse (answered.get "message")).orElse
    (.str ("HTTP " ++ host.tostring (.num (.int resp.status))))
  let (kind, retryable) := kindAndRetryable resp.status code
  return {
    kind, retryable, code
    retryAfter := lastRetryAfter resp.headers
    message := host.tostring message }

/-! ### Retries -/

def retryBaseS : Rat := 1 / 2

def retryCapS : Rat := 8

def retryAfterMaxS : Rat := 60

/-- A number of seconds that is believed. -/
def believed : LuaNumber → Option Rat
  | .int n => if 0 < n ∧ (n : Rat) ≤ retryAfterMaxS then some n else none
  | .float q => if 0 < q ∧ q ≤ retryAfterMaxS then some q else none
  | _ => none

/-- The seconds before attempt `attempt` is made again. -/
def retryDelay (attempt : Nat) (retryAfter : Option LuaNumber) (salt : Nat) : Rat :=
  match retryAfter.bind believed with
  | some after => after
  | none =>
      let base := min (retryBaseS * 2 ^ (attempt - 1)) retryCapS
      base * (1 - (salt % 5 : Nat) / 16)

/-- What came of a request: how often it was sent, and the last answer, or what
was raised. -/
structure Posted where
  attempts : Nat
  answer : Except Lua Response

/-- Attempt `attempt` is waited for. -/
def waitThen (host : Host) (attempt : Nat) (retryAfter : Option LuaNumber) (next : Posted) :
    Posted :=
  match host.sleep (retryDelay attempt retryAfter attempt * 1000) with
  | .ok () => next
  | .error raised => ⟨attempt, .error raised⟩

/-- Send a request for the attempt number `attempt`, with `left` retries after
it. -/
def postFrom (host : Host) (opts : RequestOpts) (attempt : Nat) : Nat → Posted
  | 0 => ⟨attempt + 1, host.post opts attempt⟩
  | left + 1 =>
      match host.post opts attempt with
      | .ok resp =>
          if resp.status = 200 then ⟨attempt + 1, .ok resp⟩
          else match classifyError host resp with
            | .ok classified =>
                if classified.retryable then
                  waitThen host (attempt + 1) classified.retryAfter
                    (postFrom host opts (attempt + 1) left)
                else ⟨attempt + 1, .ok resp⟩
            | .error raised => ⟨attempt + 1, .error raised⟩
      -- a transport error is asked again like a retryable status
      | .error _ => waitThen host (attempt + 1) none (postFrom host opts (attempt + 1) left)

def postWithRetry (host : Host) (opts : RequestOpts) (maxRetries : Nat) : Posted :=
  postFrom host opts 0 maxRetries

/-! ### Transport -/

def defaultMaxRetries : Nat := 2

def defaultTimeout : LuaNumber := .int 120

/-- What the response hook is told of the answer. -/
structure Seen where
  status : Option Int := none
  retryAfter : Option LuaNumber := none

/-- The first header of this name, as a number. -/
def retryAfterOf (headers : List (String × Lua)) : Option LuaNumber :=
  ((headers.find? fun h => h.1.toLower = "retry-after").map Prod.snd).bind Lua.tonumber

/-- What came of a transport: the attempts, what the hook saw, and the decoded
answer, an error, or what was raised. -/
structure Transported where
  attempts : Nat
  seen : Seen
  answer : Except Lua (Except String Lua)

/-- A body that does not decode, or the value it decodes to. -/
def decodeAnswer (host : Host) (body : String) : Except String Lua :=
  match host.decode body with
  | .ok raw => .ok raw
  | .error _ => .error "response JSON decode failed"

/-- How an answer that is not a 200 is told. -/
def errorText (host : Host) (resp : Response) (classified : Classified) : String :=
  "API error " ++ host.tostring (.num (.int resp.status)) ++ " (" ++ classified.kind ++ "): " ++
    classified.message

def transport (host : Host) (wire : Wire) (maxRetries : Option Nat) (timeout : Option LuaNumber) :
    Transported :=
  match host.encode wire.body with
  | .error raised => ⟨0, {}, .error raised⟩
  | .ok body =>
      let posted := postWithRetry host
        { url := wire.url, headers := wire.headers, body, timeout := timeout.getD defaultTimeout }
        (maxRetries.getD defaultMaxRetries)
      match posted.answer with
      | .error raised => ⟨posted.attempts, {}, .error raised⟩
      | .ok resp =>
          let seen : Seen := { status := resp.status, retryAfter := retryAfterOf resp.headers }
          if resp.status = 200 then ⟨posted.attempts, seen, .ok (decodeAnswer host resp.body)⟩
          else match classifyError host resp with
            | .ok classified =>
                ⟨posted.attempts, seen, .ok (.error (errorText host resp classified))⟩
            | .error raised => ⟨posted.attempts, seen, .error raised⟩

end AgentBlock.Llm
