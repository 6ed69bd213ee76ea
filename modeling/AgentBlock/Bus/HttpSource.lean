/-
AgentBlock/Bus/HttpSource.lean

The HTTP listener: a request becomes an event on the bus, unless its body cannot
be taken or its headers are refused first.

A text is the list of its characters.  What takes the bytes of a body off the
connection, what reads a header as text, and what reads those bytes, come from
crates: they are the parameters `takeBody`, `toStr` and `bodyOf`.  A bus is a
function that answers each event it is sent.
-/
import AgentBlock.Lib.Json
import AgentBlock.Lib.Split
import Mathlib.Algebra.Group.Int.Defs

namespace AgentBlock.Bus

/-! ### Addresses -/

/-- An IP address. -/
inductive IpAddr where
  | v4 (a b c d : UInt8)
  | v6 (segments : List UInt16) (h : segments.length = 8)
  deriving DecidableEq

namespace IpAddr

def isLoopback : IpAddr → Bool
  | v4 a _ _ _ => a = 127
  | v6 segments _ => segments = [0, 0, 0, 0, 0, 0, 0, 1]

def v4Text (a b c d : Nat) : List Char :=
  Nat.toDigits 10 a ++ '.' :: Nat.toDigits 10 b ++ '.' :: Nat.toDigits 10 c ++
    '.' :: Nat.toDigits 10 d

/-- Segments, with a colon between two. -/
def joined : List UInt16 → List Char
  | [] => []
  | [s] => Nat.toDigits 16 s.toNat
  | s :: rest => Nat.toDigits 16 s.toNat ++ ':' :: joined rest

/-- A run of zero segments. -/
structure Span where
  start : Nat := 0
  len : Nat := 0

/-- The first of the longest runs of zero segments, and the run a walk from
segment `i` is in. -/
def longestFrom (i : Nat) (longest current : Span) : List UInt16 → Span
  | [] => longest
  | s :: rest =>
      if s = 0 then
        let start := if current.len = 0 then i else current.start
        let current : Span := { start, len := current.len + 1 }
        longestFrom (i + 1) (if current.len > longest.len then current else longest) current rest
      else longestFrom (i + 1) longest {} rest

/-- The address as text. -/
def toText : IpAddr → List Char
  | v4 a b c d => v4Text a.toNat b.toNat c.toNat d.toNat
  | v6 segments _ =>
      match segments with
      | [0, 0, 0, 0, 0, 0xffff, x, y] =>
          "::ffff:".toList ++
            v4Text (x.toNat / 256) (x.toNat % 256) (y.toNat / 256) (y.toNat % 256)
      | segments =>
          let longest := longestFrom 0 {} {} segments
          if longest.len > 1 then
            joined (segments.take longest.start) ++ "::".toList ++
              joined (segments.drop (longest.start + longest.len))
          else joined segments

end IpAddr

/-! ### Host names -/

/-- The white space of Unicode. -/
def isWhiteSpace (c : Char) : Bool :=
  let n := c.toNat
  (9 ≤ n ∧ n ≤ 13) ∨ n = 32 ∨ n = 0x85 ∨ n = 0xa0 ∨ n = 0x1680 ∨ (0x2000 ≤ n ∧ n ≤ 0x200a) ∨
    n = 0x2028 ∨ n = 0x2029 ∨ n = 0x202f ∨ n = 0x205f ∨ n = 0x3000

def trim (value : List Char) : List Char := Split.trim isWhiteSpace value

def isAsciiDigit (c : Char) : Bool := '0' ≤ c ∧ c ≤ '9'

/-- A host with its port dropped. -/
def dropPort (value : List Char) : List Char :=
  match Split.last ':' value with
  | some (host, port) => if port.all isAsciiDigit then host else value
  | none => value

/-- The host part of a `Host` value, or of an origin's authority. -/
def hostOnly (value : List Char) : List Char :=
  let value := trim value
  match value with
  | '[' :: rest =>
      match Split.first ']' rest with
      | some (host, _) => host
      | none => dropPort value
  | value => dropPort value

/-- What stands between the scheme of an `Origin` value and the next slash. -/
def authority (value : List Char) : Option (List Char) :=
  (Split.once "://".toList (trim value)).map fun p => p.2.takeWhile (· ≠ '/')

def originHost (value : List Char) : Option (List Char) := (authority value).map hostOnly

/-! ### Requests and responses -/

inductive HeaderName where
  | host
  | origin
  | authorization
  | other (name : String)
  deriving DecidableEq

/-- The headers of a request: every value of every name, as they came. -/
abbrev HeaderMap := List (HeaderName × List UInt8)

/-- Every value of a name, in order. -/
def HeaderMap.getAll (headers : HeaderMap) (name : HeaderName) : List (List UInt8) :=
  (headers.filter fun header => header.1 = name).map Prod.snd

/-- The first value of a name. -/
def HeaderMap.get (headers : HeaderMap) (name : HeaderName) : Option (List UInt8) :=
  (headers.getAll name).head?

/-- What arrives of a body: all of it, or a part, and then the connection breaks
off. -/
inductive Incoming where
  | whole (bytes : List UInt8)
  | broken (bytes : List UInt8)

structure Request where
  remote : String
  method : String
  path : String
  query : Option String
  headers : HeaderMap
  body : Incoming

inductive Content where
  | json (value : Json)
  | text (value : String)

structure Response where
  status : Nat
  body : Content

/-- How large a body may be. -/
def BODY_LIMIT : Nat := 2097152

/-- What is relied on of the extractor of a body: bytes up to the limit are taken,
and for more of them, or a body that breaks off, it has a response of its own. -/
structure Extracts (takeBody : Incoming → Except Response (List UInt8)) : Prop where
  taken : ∀ bytes, bytes.length ≤ BODY_LIMIT → takeBody (.whole bytes) = .ok bytes
  tooLarge : ∀ bytes, BODY_LIMIT < bytes.length →
    ∃ text, takeBody (.whole bytes) = .error ⟨413, .text text⟩
  broken : ∀ bytes, ∃ status text, takeBody (.broken bytes) = .error ⟨status, .text text⟩ ∧
    (status = 400 ∨ status = 413)

structure Event where
  kind : String
  id : String
  payload : Json
  metaObj : Obj

/-- What a bus does with an event it is sent. -/
inductive Ack where
  | closed
  | answered (value : Json)
  | failed (error : String)
  | dropped
  | timeout

/-- What a listener is told to be. -/
structure HttpSourceConfig where
  token : Option (List Char)
  kind : String
  metaObj : Json

/-- A listener that runs. -/
structure Inner where
  token : Option (List Char)
  kind : String
  metaObj : Obj
  allowedHosts : List (List Char)

/-- What a listener bound to `addr` answers under. -/
def allowedHosts (addr : IpAddr) : List (List Char) :=
  ["localhost".toList, "127.0.0.1".toList, "::1".toList] ++
    if addr.isLoopback then [] else [addr.toText]

def start (config : HttpSourceConfig) (addr : IpAddr) : Inner where
  token := config.token
  kind := config.kind
  metaObj := config.metaObj.asObject.getD []
  allowedHosts := allowedHosts addr

/-! ### Handling a request -/

def reply (status : Nat) (body : Json) : Response :=
  { status := if 100 ≤ status ∧ status ≤ 999 then status else 500, body := .json body }

def errorBody (error : String) : Json := .obj [("error", .str error)]

/-- The status a handler asked for: a number that fits sixteen bits. -/
def statusOf : Option Json → Nat
  | some (.num (.int n)) => if 0 ≤ n ∧ n < 2 ^ 16 then n.toNat else 200
  | _ => 200

/-- What a handler's value means as a response. -/
def answer (value : Json) : Response :=
  match value.asObject with
  | some obj =>
      if (obj.get? "status").isSome || (obj.get? "body").isSome then
        reply (statusOf (obj.get? "status")) ((obj.get? "body").getD .null)
      else reply 200 value
  | none => reply 200 value

section Handle

variable (takeBody : Incoming → Except Response (List UInt8))
  (toStr : List UInt8 → Option (List Char)) (bodyOf : List UInt8 → Json)

/-- The `Host` value names a host this listener answers under. -/
def hostOk (inner : Inner) (headers : HeaderMap) : Bool :=
  match ((headers.get .host).bind toStr).map hostOnly with
  | some host => host ∈ inner.allowedHosts
  | none => false

/-- An `Origin` value that can be read names one too. -/
def originOk (inner : Inner) (headers : HeaderMap) : Bool :=
  match (headers.get .origin).bind toStr with
  | some origin =>
      match originHost origin with
      | some host => host ∈ inner.allowedHosts
      | none => false
  | none => true

/-- The token a request presents. -/
def presented (headers : HeaderMap) : Option (List Char) :=
  (((headers.get .authorization).bind toStr).bind fun value =>
    if "Bearer ".toList <+: value then some (value.drop "Bearer ".toList.length)
    else none).map trim

def tokenOk (inner : Inner) (headers : HeaderMap) : Bool :=
  match inner.token with
  | some expected => presented toStr headers = some expected
  | none => true

def eventOf (inner : Inner) (id : String) (req : Request) (body : List UInt8) : Event where
  kind := inner.kind
  id := id
  payload := .obj [("method", .str req.method), ("path", .str req.path),
    ("query", req.query.elim .null .str),
    ("body", if body = [] then .null else bodyOf body)]
  metaObj := inner.metaObj.insert "remote" (.str req.remote)

/-- What a request comes to: the events it sends, and its response.  The body is
taken before anything is looked at. -/
def handle (inner : Inner) (id : String) (bus : Event → Ack) (req : Request) :
    List Event × Response :=
  match takeBody req.body with
  | .error response => ([], response)
  | .ok body =>
      if !hostOk toStr inner req.headers then ([], reply 403 (errorBody "host not allowed"))
      else if !originOk toStr inner req.headers then
        ([], reply 403 (errorBody "origin not allowed"))
      else if !tokenOk toStr inner req.headers then
        ([], reply 401 (errorBody "token required"))
      else
        let event := eventOf bodyOf inner id req body
        match bus event with
        | .closed => ([], reply 503 (errorBody "bus channel closed"))
        | .answered value => ([event], answer value)
        | .failed error => ([event], reply 500 (errorBody error))
        | .dropped => ([event], reply 500 (errorBody "ack dropped"))
        | .timeout => ([event], reply 504 (errorBody "handler timeout"))

end Handle

end AgentBlock.Bus
