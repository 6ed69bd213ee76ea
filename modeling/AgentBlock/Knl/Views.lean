/-
AgentBlock/Knl/Views.lean

The shipped views: one statement each over the table of events.

A view joins and groups by what events carry, a call's id or a beat's, and reads
the log as it is only where these tell apart what they are taken to tell apart.
A number in a column is its value.  SQLite's `SUM`, and the text it has for a value
that is a list or an object, are parameters.
-/
import AgentBlock.Knl.Resume
import AgentBlock.Lib.Table
import AgentBlock.Lib.Worklist
import Mathlib.Algebra.Order.Ring.Unbundled.Rat
import Mathlib.Data.Sum.Lattice
import Mathlib.Data.Sum.Order
import Mathlib.Order.WithBot

namespace AgentBlock.Knl.Views

/-! ### Columns -/

/-- A value of a column: NULL, before it every number, and before these every
text. -/
abbrev Cell : Type := WithBot (Rat ⊕ₗ String)

def Cell.num (q : Rat) : Cell := ((toLex (.inl q) : Rat ⊕ₗ String) : Cell)

def Cell.text (s : String) : Cell := ((toLex (.inr s) : Rat ⊕ₗ String) : Cell)

section

variable (jsonText : Json → String)

/-- A value as `json_extract` answers it. -/
def cell : Json → Cell
  | .null => ⊥
  | .bool b => Cell.num b.toNat
  | .num (.int n) => Cell.num n
  | .num (.float q) => Cell.num q
  | .num .negZero => Cell.num 0
  | .str s => Cell.text s
  | v => Cell.text (jsonText v)

/-- `json_extract(o, '$.key')`. -/
def extract (o : Obj) (key : String) : Cell := (o.get? key).elim ⊥ (cell jsonText)

/-- The member of a member, where that is an object. -/
def member (o : Obj) (outer key : String) : Option Json :=
  ((o.get? outer).bind Json.asObject).bind fun inner => inner.get? key

/-- `json_extract(o, '$.outer.key')`. -/
def extractIn (o : Obj) (outer key : String) : Cell := (member o outer key).elim ⊥ (cell jsonText)

/-- `json_array_length(json_extract(o, '$.outer.key'))`; of what is no list it is
none. -/
def lengthIn (o : Obj) (outer key : String) : Cell :=
  match member o outer key with
  | none | some .null => ⊥
  | some (.arr xs) => Cell.num xs.length
  | some _ => Cell.num 0

/-- `MAX` of a column. -/
def greatest (values : List Cell) : Cell := values.foldr max ⊥

/-! ### Events -/

/-- The id of the beat an event is of. -/
def beatOf (e : Current) : Cell := extract jsonText e.labels "beat"

def callIdOf (e : Current) : Cell := extract jsonText e.data "call_id"

def isToolCall (e : Current) : Bool := e.kind = "tool_call"

def isToolResult (e : Current) : Bool := e.kind = "tool_result"

def isRequest (e : Current) : Bool := e.kind = "llm_request"

def isResponse (e : Current) : Bool := e.kind = "llm_response"

def isOpening (e : Current) : Bool := e.kind = KIND_SESSION_OPENED

def isEnding (e : Current) : Bool := e.kind = KIND_SESSION_CLOSED

/-- The result is recorded under the id of the call; no id is that of a NULL. -/
def answers (c r : Current) : Bool :=
  isToolResult r && decide (callIdOf jsonText r = callIdOf jsonText c ∧ callIdOf jsonText c ≠ ⊥)

def parentOf (e : Current) : Cell := extract jsonText e.data "parent"

/-! ### Rows -/

structure BeatRow where
  beat : Cell
  seqFrom : Nat
  seqTo : Nat
  kinds : String
  dropped : Cell
  before : Cell
  after : Cell
  deriving DecidableEq

structure PairRow where
  beat : Cell
  callId : Cell
  name : Cell
  ok : Bool
  deriving DecidableEq

structure UsageRow where
  stream : String
  calls : Nat
  inputTokens : Cell
  outputTokens : Cell
  thinkingTokens : Cell
  deriving DecidableEq

structure TreeRow where
  session : String
  parent : Cell
  openedEpochMs : Option Nat
  closedEpochMs : Option Nat
  openChildren : Cell
  deriving DecidableEq

/-- The order of a log of several streams. -/
def rowKey (row : Row) : String ×ₗ Nat := toLex (row.stream, row.event.seq)

/-- `FROM events WHERE stream IN $sessions ORDER BY stream, seq`. -/
def rowsIn (db : Database) (asked : List String) : List Row :=
  Table.orderBy rowKey (db.filter fun row => row.stream ∈ asked)

/-! ### Beats -/

/-- What is left of a column of the requests. -/
def ofRequests (column : Current → Cell) (events : List Current) : Cell :=
  greatest ((events.filter isRequest).map column)

/-- The row of the events of one beat. -/
def beatRow (beat : Cell) (events : List Current) : BeatRow where
  beat := beat
  seqFrom := (events.map Current.seq).min?.getD 0
  seqTo := (events.map Current.seq).max?.getD 0
  kinds := ",".intercalate (events.map Current.kind)
  dropped := ofRequests (fun e => lengthIn e.data "window" "dropped") events
  before := ofRequests (fun e => extractIn jsonText e.data "window" "before") events
  after := ofRequests (fun e => extractIn jsonText e.data "window" "after") events

def rowOfGroup (group : Cell × List Row) : BeatRow :=
  beatRow jsonText group.1 (group.2.map Row.event)

/-- `BEATS_SQL`: the events of a beat, grouped by its id. -/
def beatsSql (db : Database) (asked : List String) : List BeatRow :=
  let inner := (rowsIn db asked).filter fun row => beatOf jsonText row.event ≠ ⊥
  Table.orderBy (fun row => toLex (row.seqFrom, row.beat))
    ((Table.groups (fun row => beatOf jsonText row.event) inner).map (rowOfGroup jsonText))

/-! ### Tool pairs -/

/-- Whether a stored `ok` is true. -/
def truthy (v : Cell) : Bool := v = Cell.num 1

def pairRow (c r : Current) : PairRow where
  beat := beatOf jsonText c
  callId := callIdOf jsonText c
  name := extract jsonText c.data "name"
  ok := truthy (extract jsonText r.data "ok")

/-- `TOOL_PAIRS_SQL`: a call beside every result of its stream that has its
id. -/
def toolPairsSql (db : Database) (asked : List String) : List PairRow :=
  ((rowsIn db asked).filter fun c => isToolCall c.event).flatMap fun c =>
    ((db.stream c.stream).filter fun r => answers jsonText c.event r).map
      (pairRow jsonText c.event)

/-! ### Usage -/

variable (total : List Cell → Cell)

/-- `COALESCE(SUM(json_extract(data, '$.usage.counter')), 0)`. -/
def spent (counter : String) (responses : List Current) : Cell :=
  total (responses.map fun e => extractIn jsonText e.data "usage" counter)

def usageRow (stream : String) (responses : List Current) : UsageRow where
  stream := stream
  calls := responses.length
  inputTokens := spent jsonText total "input_tokens" responses
  outputTokens := spent jsonText total "output_tokens" responses
  thinkingTokens := spent jsonText total "thinking_tokens" responses

/-- `USAGE_SQL`: the responses, grouped by their stream. -/
def usageSql (db : Database) (asked : List String) : List UsageRow :=
  let inner := (db.filter fun row => row.stream ∈ asked).filter fun row => isResponse row.event
  Table.orderBy UsageRow.stream ((Table.groups Row.stream inner).map fun group =>
    usageRow jsonText total group.1 (group.2.map Row.event))

/-! ### The tree -/

/-- A session of the tree, and what its opening names for its parent. -/
def nodeOf (row : Row) : String × Cell := (row.stream, parentOf jsonText row.event)

/-- `root`: the session's own openings. -/
def rootNodes (db : Database) (root : String) : List (String × Cell) :=
  (db.filter fun row => isOpening row.event ∧ row.stream = root).map (nodeOf jsonText)

/-- `child`: the openings that name a session for their parent. -/
def childNodes (db : Database) (node : String × Cell) : List (String × Cell) :=
  (db.filter fun row => isOpening row.event ∧
    parentOf jsonText row.event = Cell.text node.1).map (nodeOf jsonText)

/-- `tree`: `UNION` keeps a row once, and a table of so many events has no more
openings. -/
def nodes (db : Database) (root : String) : List (String × Cell) :=
  Worklist.reached (childNodes jsonText db) (db.length + 1) (rootNodes jsonText db root)

def treeRow (db : Database) (node : String × Cell) : TreeRow where
  session := node.1
  parent := node.2
  openedEpochMs := (((db.stream node.1).filter isOpening).map Current.epochMs).min?
  closedEpochMs := (((db.stream node.1).filter isEnding).map Current.epochMs).min?
  openChildren :=
    ((Table.orderBy Current.seq ((db.stream node.1).filter isEnding)).head?).elim ⊥ fun e =>
      extract jsonText e.data FIELD_OPEN_CHILDREN

/-- What the rows of a tree are put in order by: a NULL is before every time. -/
def treeKey (row : TreeRow) : WithBot Nat ×ₗ String := toLex (row.openedEpochMs, row.session)

/-- `TREE_SQL`: the sessions opened from one, however deep. -/
def treeSql (db : Database) (root : String) : List TreeRow :=
  Table.orderBy treeKey ((nodes jsonText db root).map (treeRow jsonText db))

/-! ### Reads -/

/-- The answer of a read that is cut after `limit` rows, and whether it was. -/
def capRows {α : Type} (limit : Nat) (rows : List α) : List α × Bool :=
  (rows.take limit, decide (limit < rows.length))

def beats (db : Database) (asked : List String) (limit : Nat) : List BeatRow × Bool :=
  capRows limit (beatsSql jsonText db asked)

def toolPairs (db : Database) (asked : List String) (limit : Nat) : List PairRow × Bool :=
  capRows limit (toolPairsSql jsonText db asked)

def usage (db : Database) (asked : List String) (limit : Nat) : List UsageRow × Bool :=
  capRows limit (usageSql jsonText total db asked)

def tree (db : Database) (root : String) (limit : Nat) : List TreeRow × Bool :=
  capRows limit (treeSql jsonText db root)

end

end AgentBlock.Knl.Views
