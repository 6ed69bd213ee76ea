/-
AgentBlock/Bridge/Ts.lean

The time series: what `append` writes, and how `query` and `last` read it.

The table is the points in the order they were inserted.  A statement is what
SQLite makes of it: `json_extract` of a scalar is its SQL value, a bound text
equals no number, integer division drops the fraction.  `serde` writes a JSON
value as text by `jsonText`, Lua a number by `numberText`, mlua reads a Lua value
as an integer by `asI64`, and sums and averages are `sumOf` and `avgOf`:
parameters, all five.
-/
import AgentBlock.Bridge.JsonTrip
import AgentBlock.Lib.I64
import AgentBlock.Lib.Numeral
import Mathlib.Algebra.Order.Floor.Defs
import Mathlib.Data.List.Sort
import Mathlib.Data.Rat.Floor

namespace AgentBlock.Ts

open Bridge (LuaKey LuaVal toJson)

/-! ### The table -/

/-- A tag's value. -/
inductive Scalar where
  | str (s : String)
  | num (n : JsonNumber)
  | bool (b : Bool)
  deriving DecidableEq

abbrev Tags := List (String × Scalar)

structure Point where
  series : String
  ts : I64
  tags : Option Tags
  value : Json

def validateTagKey (key : String) : Except String Unit :=
  if key.toList.all (fun c => c.isAlphanum || c == '_') then .ok ()
  else .error "ts tag key must be [a-zA-Z0-9_]+"

/-- `std.ts.append`, of a value and tags that are JSON. -/
def append (db : List Point) (series : String) (value : Json) (tags : Option Tags) (ts : I64) :
    Except String (List Point) := do
  (tags.getD []).forM fun t => validateTagKey t.1
  .ok (db ++ [⟨series, ts, tags, value⟩])

/-! ### Options -/

structure Opts where
  fromTs : LuaVal := .nil
  toTs : LuaVal := .nil
  tags : LuaVal := .nil
  agg : LuaVal := .nil
  bucketMs : LuaVal := .nil
  limit : LuaVal := .nil
  offset : LuaVal := .nil

/-- `get::<Option<i64>>(…).ok().flatten()`: nil is no integer, an integer is
itself, and a float that is read is the integer it is equal to. -/
structure IntConversion (asI64 : LuaVal → Option I64) : Prop where
  nil : asI64 .nil = none
  int : ∀ n : I64, asI64 (.num (.int n.val)) = some n
  whole : ∀ q n, asI64 (.num (.float q)) = some n → q = n.val
  zero : ∀ n, asI64 (.num .negZero) = some n → n.val = 0

/-- `get::<Option<String>>(…).ok().flatten()`. -/
def asText (numberText : LuaNumber → String) : LuaVal → Option String
  | .str s => some s
  | .num n => some (numberText n)
  | _ => none

/-- `get::<Option<LuaTable>>(…).ok().flatten()`, as the pairs of the table. -/
def asPairs : LuaVal → Option (List (LuaKey × LuaVal))
  | .table _ items fields =>
      some ((items.zipIdx 1).map (fun i => (.int i.2, i.1)) ++ fields)
  | _ => none

/-- A key as a string. -/
def tagKey : LuaKey → Except String String
  | .str s => .ok s
  | .int n => .ok (toString n)
  | .float shown => .ok shown
  | .other type => .error ("error converting Lua " ++ type ++ " to String")

/-- The keys of a tag table, and its values as JSON. -/
def tagValues : List (LuaKey × LuaVal) → Except String (List (String × Json))
  | [] => .ok []
  | (k, v) :: rest => do
      let key ← tagKey k
      validateTagKey key
      let value ← toJson 0 v
      let values ← tagValues rest
      .ok ((key, value) :: values)

section

variable (jsonText : Json → String)

/-- The text a value is compared as. -/
def comparedText : Json → String
  | .str s => s
  | other => jsonText other

def collectTagFilter (pairs : List (LuaKey × LuaVal)) : Except String (List (String × String)) :=
  (tagValues pairs).map fun values => values.map fun v => (v.1, comparedText jsonText v.2)

/-- What a query asks for. -/
structure Query where
  series : String
  fromTs : I64 := ⟨-9223372036854775808, I64.lo_le_lo, I64.lo_le_hi⟩
  toTs : I64 := ⟨9223372036854775807, I64.lo_le_hi, I64.hi_le_hi⟩
  tags : List (String × String) := []
  agg : Option String := none
  bucketMs : Option I64 := none
  limit : Option I64 := none
  offset : Option I64 := none

def checkBucket (agg : Option String) : Option I64 → Except String Unit
  | none => .ok ()
  | some bucketMs =>
      if bucketMs.val ≤ 0 then .error "ts bucket_ms must be positive"
      else if agg.isNone then .error "ts bucket_ms requires agg"
      else .ok ()

/-- The check of `limit` and of `offset`. -/
def checkNonneg (what : String) : Option I64 → Except String Unit
  | none => .ok ()
  | some n => if n.val < 0 then .error ("ts opts." ++ what ++ " must be >= 0") else .ok ()

variable (numberText : LuaNumber → String) (asI64 : LuaVal → Option I64)

/-- The query of a call, its options checked. -/
def queryOf (series : String) (opts : Opts) : Except String Query := do
  let agg := asText numberText opts.agg
  let bucketMs := asI64 opts.bucketMs
  let limit := asI64 opts.limit
  let offset := asI64 opts.offset
  checkBucket agg bucketMs
  checkNonneg "limit" limit
  checkNonneg "offset" offset
  let tags ← collectTagFilter jsonText ((asPairs opts.tags).getD [])
  let q : Query := { series := series }
  .ok { q with
    fromTs := (asI64 opts.fromTs).getD q.fromTs
    toTs := (asI64 opts.toTs).getD q.toTs
    tags, agg, bucketMs, limit, offset }

end

/-! ### Statements -/

/-- A value of SQL. -/
inductive SqlValue where
  | null
  | integer (n : ℤ)
  | real (q : ℚ)
  | text (s : String)
  deriving DecidableEq

def Scalar.sql : Scalar → SqlValue
  | .str s => .text s
  | .num (.int n) => .integer n
  | .num (.float q) => .real q
  | .num .negZero => .real 0
  | .bool b => .integer (if b then 1 else 0)

def tagOf (tags : Option Tags) (key : String) : Option Scalar := (tags.getD []).lookup key

/-- `json_extract(tags, '$.key')`. -/
def jsonExtract (tags : Option Tags) (key : String) : SqlValue :=
  ((tagOf tags key).map Scalar.sql).getD .null

/-- `… AND json_extract(tags, '$.key') = ?` for each pair of a filter. -/
def holdsFilter (filter : List (String × String)) (p : Point) : Bool :=
  filter.all fun f => jsonExtract p.tags f.1 = .text f.2

/-- The points a `WHERE` lets through. -/
def selected (db : List Point) (q : Query) : List Point :=
  db.filter fun p => p.series = q.series ∧ q.fromTs.val ≤ p.ts.val ∧ p.ts.val ≤ q.toTs.val ∧
    holdsFilter q.tags p

def byTime (p p' : Point) : Prop := p.ts.val ≤ p'.ts.val

instance : DecidableRel byTime := fun p p' => inferInstanceAs (Decidable (p.ts.val ≤ p'.ts.val))

/-- `ORDER BY ts, rowid`. -/
def ordered (points : List Point) : List Point := points.insertionSort byTime

/-- `LIMIT` and `OFFSET`. -/
def sliced {α : Type} (limit offset : Option I64) (rows : List α) : List α :=
  let rows := rows.drop ((offset.map fun o => o.val.toNat).getD 0)
  match limit with
  | some limit => rows.take limit.val.toNat
  | none => rows

/-- `(ts / bucket_ms) * bucket_ms`. -/
def bucketTs (bucketMs ts : ℤ) : ℤ := ts.tdiv bucketMs * bucketMs

/-- `GROUP BY bucket_ts ORDER BY bucket_ts`: each bucket, and the points it is of. -/
def groups (bucketMs : ℤ) (points : List Point) : List (ℤ × List Point) :=
  ((points.map fun p => bucketTs bucketMs p.ts.val).dedup.insertionSort (· ≤ ·)).map fun bucket =>
    (bucket, points.filter fun p => bucketTs bucketMs p.ts.val = bucket)

inductive Agg where
  | count
  | sum
  | avg
  | last
  deriving DecidableEq

def aggOf : String → Except String Agg
  | "count" => .ok .count
  | "sum" => .ok .sum
  | "avg" => .ok .avg
  | "last" => .ok .last
  | other => .error ("unknown agg: " ++ other)

/-- What an aggregate is: a count or a time, or a real. -/
inductive AggValue (ρ : Type) where
  | integer (n : ℤ)
  | real (x : ρ)

inductive Answer (ρ : Type) where
  | raw (rows : List Point)
  | single (value : AggValue ρ)
  /-- The last point, where there is one. -/
  | lastPoint (point : Option Point)
  | bucketed (rows : List (ℤ × AggValue ρ))

section

variable {ρ : Type} (sumOf avgOf : List Json → ρ)

def aggregate (agg : Agg) (points : List Point) : AggValue ρ :=
  match agg with
  | .count => .integer points.length
  | .sum => .real (sumOf (points.map Point.value))
  | .avg => .real (avgOf (points.map Point.value))
  -- `MAX(ts)`
  | .last => .integer (points.foldl (fun n p => max n p.ts.val) (-9223372036854775808))

/-- Where a tag has a name a path cannot have, reading the tags of a row raises. -/
def badPath (db : List Point) (q : Query) : Bool :=
  q.tags.any (fun f => f.1 = "") && (selected db { q with tags := [] }).any fun p => p.tags.isSome

def runQuery (db : List Point) (q : Query) : Except String (Answer ρ) := do
  let agg ← match q.agg with
    | none => pure none
    | some name => (aggOf name).map some
  if badPath db q then throw "ts query row: bad JSON path: '$.'"
  match agg, q.bucketMs with
  | none, _ => return .raw (sliced q.limit q.offset (ordered (selected db q)))
  | some .last, none => return .lastPoint (ordered (selected db q)).getLast?
  | some agg, none => return .single (aggregate sumOf avgOf agg (selected db q))
  | some agg, some bucketMs =>
      return .bucketed (sliced q.limit q.offset ((groups bucketMs.val (selected db q)).map fun g =>
        (g.1, aggregate sumOf avgOf agg g.2)))

variable (jsonText : Json → String) (numberText : LuaNumber → String)
  (asI64 : LuaVal → Option I64)

/-- `std.ts.query`. -/
def query (db : List Point) (series : String) (opts : Opts) : Except String (Answer ρ) := do
  runQuery sumOf avgOf db (← queryOf jsonText numberText asI64 series opts)

/-- `std.ts.last`, of the pairs of its table of tags. -/
def last (db : List Point) (series : String) (tags : List (LuaKey × LuaVal)) :
    Except String (Option Point) := do
  let q : Query := { series := series, tags := ← collectTagFilter jsonText tags }
  if badPath db q then throw "ts last row: bad JSON path: '$.'"
  return (ordered (selected db q)).getLast?

end

/-! ### A conversion -/

/-- A number of 64 bits, where the number is one. -/
def whole64 (n : LuaNumber) : Option I64 :=
  let whole : Option ℤ := match n with
    | .int n => some n
    | .float q => if q = ⌊q⌋ then some ⌊q⌋ else none
    | .negZero => some 0
    | _ => none
  whole.bind fun n =>
    if h : -9223372036854775808 ≤ n ∧ n ≤ 9223372036854775807 then some ⟨n, h.1, h.2⟩ else none

/-- Numbers and the texts of numbers, read with no fraction dropped. -/
def wholeI64 : LuaVal → Option I64
  | .num n => whole64 n
  | .str s => (Numeral.parse s.toList).bind whole64
  | _ => none

theorem wholeI64_converts : IntConversion wholeI64 where
  nil := rfl
  int n := dif_pos ⟨n.lo, n.hi⟩
  whole q n h := by
    obtain ⟨m, hm, h⟩ := Option.bind_eq_some_iff.mp h
    dsimp only at hm
    split at hm
    next hq =>
      obtain rfl := Option.some.inj hm
      split at h
      · obtain rfl := Option.some.inj h
        exact hq
      · cases h
    next => cases hm
  zero n h := by
    obtain rfl := Option.some.inj h
    rfl

end AgentBlock.Ts
