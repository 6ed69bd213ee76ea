/-
AgentBlock/Knl/Query.lean

Reading the log with SQL: a statement is scanned for its first word and its
parameters, every parameter becomes a bare question mark, and the values they
bind to are put in one list.

A statement is its bytes.  The scanner's loop is `Lexemes.lexemes` over `next`,
which says what begins at a byte, and `scanLexeme`, which says what the loop does
about it.
-/
import AgentBlock.Knl.Event
import AgentBlock.Lib.Lexemes
import AgentBlock.Lib.Utf8

namespace AgentBlock.Knl.Query

open Lexemes (lexemes)

/-! ### Bytes -/

/-- The byte an ASCII character is. -/
def ascii (c : Char) : UInt8 := UInt8.ofNat c.toNat

/-- The bytes of a literal. -/
def lit (s : String) : Bytes := Utf8.encode s.toList

/-- The text bytes below 128 are. -/
def textOf (bs : Bytes) : String := String.ofList (bs.map fun b => Char.ofNat b.toNat)

def isSpace (b : UInt8) : Bool :=
  b = ascii ' ' || b = ascii '\t' || b = ascii '\n' || b = 12 || b = ascii '\r'

def isDigit (b : UInt8) : Bool := ascii '0' ≤ b && b ≤ ascii '9'

def isUpper (b : UInt8) : Bool := ascii 'A' ≤ b && b ≤ ascii 'Z'

def isLower (b : UInt8) : Bool := ascii 'a' ≤ b && b ≤ ascii 'z'

def isAlpha (b : UInt8) : Bool := isUpper b || isLower b

/-- What an identifier goes on with. -/
def isIdent (b : UInt8) : Bool := isAlpha b || isDigit b || b = ascii '_' || b = ascii '$'

def toUpper (b : UInt8) : UInt8 := if isLower b then b - 32 else b

/-! ### What begins at a byte -/

/-- What answers a parameter. -/
inductive Param where
  | stream
  | sessions
  | positional
  | numbered
  | named (name : Bytes)
  deriving DecidableEq

inductive Lexeme where
  | space
  | lineComment
  | blockComment (closed : Bool)
  | semicolon
  | quoted (closed : Bool)
  | param (p : Param)
  | lonePrefix
  | word
  | other
  deriving DecidableEq

def STREAM_PARAM : Bytes := lit "$stream"

def SESSIONS_TOKEN : Bytes := lit "$sessions"

/-- How far a block comment goes behind its opening, and whether it is closed. -/
def skipBlock : Bytes → Nat × Bool
  | [] => (0, false)
  | b :: bs =>
      if b = ascii '*' ∧ bs.head? = some (ascii '/') then (2, true)
      else ((skipBlock bs).1 + 1, (skipBlock bs).2)

/-- How far a quoted run goes behind its opening, and whether it is closed. -/
def skipQuoted (close : UInt8) (doubles : Bool) : Bytes → Nat × Bool
  | [] => (0, false)
  | [b] => (1, b = close)
  | b :: c :: bs =>
      if b = close then
        if doubles && c = close then
          ((skipQuoted close doubles bs).1 + 2, (skipQuoted close doubles bs).2)
        else (1, true)
      else ((skipQuoted close doubles (c :: bs)).1 + 1, (skipQuoted close doubles (c :: bs)).2)

/-- How far the identifier goes that starts here. -/
def identEnd (bs : Bytes) : Nat := (bs.takeWhile isIdent).length

/-- What a name with its prefix asks for. -/
def paramOf (name : Bytes) : Param :=
  if name = STREAM_PARAM then .stream
  else if name = SESSIONS_TOKEN then .sessions
  else .named name

/-- What `b` begins before `bs`, and how many of `bs` are of it. -/
def next (b : UInt8) (bs : Bytes) : Lexeme × Nat :=
  if isSpace b then (.space, 0)
  else if b = ascii '-' ∧ bs.head? = some (ascii '-') then
    (.lineComment, (bs.tail.takeWhile (· ≠ ascii '\n')).length + 1)
  else if b = ascii '/' ∧ bs.head? = some (ascii '*') then
    (.blockComment (skipBlock bs.tail).2, (skipBlock bs.tail).1 + 1)
  else if b = ascii ';' then (.semicolon, 0)
  else if b = ascii '\'' ∨ b = ascii '"' ∨ b = ascii '`' then
    (.quoted (skipQuoted b true bs).2, (skipQuoted b true bs).1)
  else if b = ascii '[' then
    (.quoted (skipQuoted (ascii ']') false bs).2, (skipQuoted (ascii ']') false bs).1)
  else if b = ascii '?' then
    let digits := (bs.takeWhile isDigit).length
    (.param (if digits = 0 then .positional else .numbered), digits)
  else if b = ascii '$' ∨ b = ascii ':' ∨ b = ascii '@' then
    -- a lone prefix names nothing, and is SQLite's to refuse
    if identEnd bs = 0 then (.lonePrefix, 0)
    else (.param (paramOf (b :: bs.takeWhile isIdent)), identEnd bs)
  else if isAlpha b || b = ascii '_' then (.word, identEnd bs)
  else (.other, 0)

/-! ### The scan -/

/-- A parameter, and where it stands in the text. -/
structure Token where
  start : Nat
  stop : Nat
  param : Param
  deriving DecidableEq

structure Scanned where
  keyword : Bytes
  params : List Token
  deriving DecidableEq

/-- Where the scan is. -/
structure Scanning where
  pos : Nat := 0
  keyword : Option Bytes := none
  params : List Token := []
  ended : Bool := false
  deriving DecidableEq

/-- One turn of the scan. -/
def scanLexeme (s : Scanning) (l : Lexeme × Bytes) : Except KnlError Scanning :=
  let stop := s.pos + l.2.length
  match l.1 with
  | .space | .lineComment | .blockComment _ => .ok { s with pos := stop }
  | kind =>
      -- after the semicolon only blanks and comments may follow
      if s.ended then
        .error (.validation "a query is one statement: there is SQL after the `;`")
      else match kind with
        | .semicolon => .ok { s with pos := stop, ended := true }
        | .param p => .ok { s with pos := stop, params := s.params ++ [⟨s.pos, stop, p⟩] }
        | .word =>
            .ok { s with pos := stop, keyword := s.keyword.orElse fun _ => l.2.map toUpper }
        | _ => .ok { s with pos := stop }

/-- Find the first word and every parameter, and refuse a second statement. -/
def scan (sql : Bytes) : Except KnlError Scanned := do
  let s ← (lexemes next sql).foldlM scanLexeme {}
  match s.keyword with
  | none => .error (.validation "a query needs a statement; the SQL is empty")
  | some keyword => .ok ⟨keyword, s.params⟩

/-! ### The values -/

inductive QueryParams where
  | none
  | positional (values : List Json)
  | named (values : Obj)

/-- The values for the bare question marks. -/
def QueryParams.given : QueryParams → List Json
  | .positional values => values
  | _ => []

/-- The Rust debug text of a text of identifier characters. -/
def debug (bs : Bytes) : String := "\"" ++ textOf bs ++ "\""

def typeNameOf : Json → String
  | .null => "null"
  | .bool _ => "boolean"
  | .num _ => "number"
  | .str _ => "string"
  | .arr _ => "list"
  | .obj _ => "table"

/-- A caller's value, if it is one SQLite has. -/
def scalar (value : Json) : Except KnlError Json :=
  match value with
  | .arr _ | .obj _ =>
      .error (.validation ("a " ++ typeNameOf value ++ " is not a SQLite value"))
  | value => .ok value

/-- The value under a name, without its prefix or with it. -/
def lookup (named : Obj) (name : Bytes) : Option Json :=
  (named.get? (textOf name.tail)).orElse fun _ => named.get? (textOf name)

section

variable (sql : Bytes) (params : QueryParams) (stream : String) (sessions : List String)

/-- What one parameter binds, and how many of the given values are taken by
then. -/
def answer (token : Token) (taken : Nat) : Except KnlError (List Json × Nat) :=
  match token.param with
  | .stream => .ok ([.str stream], taken)
  | .sessions => .ok (sessions.map .str, taken)
  | .positional =>
      match params.given[taken]? with
      | none =>
          .error (.validation ("the query has more `?` parameters than the " ++
            toString params.given.length ++ " value(s) given"))
      | some value => do .ok ([← scalar value], taken + 1)
  | .numbered =>
      .error (.validation (debug ((sql.take token.stop).drop token.start) ++
        " is a numbered parameter, and the kernel assigns the positions: number your " ++
        "parameters by position (a bare `?`) or name them"))
  | .named name =>
      match params with
      | .named named =>
          match lookup named name with
          | none =>
              .error (.validation ("no value was given for the parameter " ++ debug name))
          | some value => do .ok ([← scalar value], taken)
      | _ =>
          .error (.validation ("the query names the parameter " ++ debug name ++
            ", so params must be a table of names to values"))

/-- What is put in place of a parameter. -/
def placeholder : Param → Bytes
  | .sessions =>
      [ascii '('] ++ (lit ", ").intercalate (sessions.map fun _ => [ascii '?']) ++ [ascii ')']
  | _ => [ascii '?']

/-- The text from `cursor` on with its parameters replaced, the values they
bind, and how many of the given values are taken at the end. -/
def resolveFrom (cursor taken : Nat) : List Token → Except KnlError (Bytes × List Json × Nat)
  | [] => .ok (sql.drop cursor, [], taken)
  | token :: rest => do
      let (bound, taken) ← answer sql params stream sessions token taken
      let (out, values, taken) ← resolveFrom token.stop taken rest
      .ok ((sql.take token.start).drop cursor ++ placeholder sessions token.param ++ out,
        bound ++ values, taken)

/-- Every parameter becomes a bare question mark; a given value that no question
mark took is one too many. -/
def resolve (tokens : List Token) : Except KnlError (Bytes × List Json) := do
  let (out, values, taken) ← resolveFrom sql params stream sessions 0 0 tokens
  if taken < params.given.length then
    .error (.validation (toString params.given.length ++ " value(s) were given for " ++
      toString taken ++ " `?` parameter(s)"))
  else .ok (out, values)

end

/-! ### The plan -/

structure QueryOpts where
  sessions : Option (List String) := none
  timeoutMs : Nat := 5000
  limit : Nat := 1000

structure QueryPlan where
  sql : Bytes
  values : List Json
  stream : String
  sessions : List String
  params : QueryParams
  timeoutMs : Nat
  limit : Nat

def READ_KEYWORDS : List Bytes := [lit "SELECT", lit "WITH"]

/-- The streams a query reads: those it names, or its session's own. -/
def sessionsOf (opts : QueryOpts) (stream : String) : Except KnlError (List String) :=
  match opts.sessions with
  | none => .ok [stream]
  | some [] =>
      .error (.validation ("opts.sessions is empty; a set that selects no stream is not a " ++
        "request (omit it to read this session's own)"))
  | some ids => .ok ids

/-- Check a statement and its values, and settle what each parameter binds to. -/
def plan (sql : Bytes) (params : QueryParams) (opts : QueryOpts) (stream : String) :
    Except KnlError QueryPlan := do
  let sessions ← sessionsOf opts stream
  if opts.timeoutMs = 0 then
    .error (.validation "opts.timeout_ms must be a positive whole number of milliseconds")
  else
    let scanned ← scan sql
    -- the first word decides, upper-cased and with comments skipped
    if scanned.keyword ∈ READ_KEYWORDS then
      let (rewritten, values) ← resolve sql params stream sessions scanned.params
      .ok ⟨rewritten, values, stream, sessions, params, opts.timeoutMs, opts.limit⟩
    else
      .error (.validation ("a query reads: it must start with SELECT or WITH, got " ++
        debug scanned.keyword))

/-- The largest number of a signed 64-bit integer. -/
def I64_MAX : Nat := 9223372036854775807

/-- The rows a query asks for: one more than it returns, which says whether the
answer was cut. -/
def rowCap (limit : Nat) : Nat := min (min limit I64_MAX + 1) I64_MAX

/-- The statement the store runs: the caller's, with the kernel's cap around
it. -/
def capped (p : QueryPlan) : Bytes :=
  lit "SELECT * FROM (" ++ p.sql ++ lit ") LIMIT " ++ lit (toString (rowCap p.limit))

end AgentBlock.Knl.Query
