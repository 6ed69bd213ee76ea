/-
AgentBlock/Lshape/Check.lean

The validator of schemas: what a schema is, and the walk that looks for the
first violation of one in a value.

A walk answers that there is none, or with the first.  It raises when it is deeper
than it may be, when a name has to be looked up and there is no registry, when Lua
finds a pattern malformed, and when it has to write down a length that is no integer
of Lua's.
What Lua's own library makes of a value, and the order in which `pairs` gives the
entries of a table, are parameters.
-/
import AgentBlock.Lib.Checks
import AgentBlock.Lib.LuaArith
import Mathlib.Data.List.Dedup
import Mathlib.Data.List.DropRight

namespace AgentBlock.Lshape

/-! ### Schemas -/

/-- The bounds of a value, and of its length. -/
structure Bounds where
  min : Option LuaNumber := none
  max : Option LuaNumber := none
  minLen : Option ℕ := none
  maxLen : Option ℕ := none
  deriving DecidableEq

inductive Schema where
  | any
  | prim (type : String)
  | integer
  | tuple (items : List Schema)
  | bounded (inner : Schema) (bounds : Bounds)
  | optional (inner : Schema)
  | described (inner : Schema) (doc : String)
  | arrayOf (elem : Schema)
  | shape (fields : List (String × Schema)) (isOpen : Bool)
  | discriminated (tag : String) (variants : List (String × List (String × Schema) × Bool))
  | anyOf (variants : List Schema)
  | mapOf (key val : Schema)
  | ref (name : String)
  | pattern (pat : String)
  | oneOf (values : List Lua)

/-- What is stored under a name. -/
def find {α : Type} (entries : List (String × α)) (name : String) : Option α :=
  (entries.find? fun e => e.1 = name).map Prod.snd

/-! ### Violations -/

/-- A step of a path. -/
inductive Segment where
  | field (name : String)
  | index (i : ℕ)
  /-- A key of a map, and what is under it. -/
  | key (text : String)
  | value (text : String)
  deriving DecidableEq

def Segment.render : Segment → String
  | field name => "." ++ name
  | index i => "[" ++ toString i ++ "]"
  | key text => "[key=" ++ text ++ "]"
  | value text => "[" ++ text ++ "]"

/-- A path, the last step first. -/
abbrev Path := List Segment

def Path.render (path : Path) : String := path.foldr (fun s text => text ++ s.render) "$"

structure Violation where
  path : Path
  detail : String

def Violation.reason (r : Violation) : String :=
  "shape violation at " ++ Path.render r.path ++ ": " ++ r.detail

/-- A walk raises a text, or finds a violation, or none. -/
abbrev Walk := Checked String Violation

/-! ### What Lua gives -/

/-- The library of Lua, as far as it is asked. -/
structure Library where
  tostring : Lua → String
  /-- `string.format("%q", s)`. -/
  quoted : String → String
  /-- `s:match(pat) ~= nil`, which raises at what is malformed in the pattern. -/
  matchesPattern : String → String → Except String Bool
  /-- The names of a table, in the order of `pairs` there. -/
  names : Path → List String → List String
  entries : Path → List (Lua × Lua) → List (Lua × Lua)

/-- The string matches, and the match does not raise. -/
def Library.fits (lib : Library) (s pat : String) : Bool :=
  match lib.matchesPattern s pat with
  | .ok found => found
  | .error _ => false

/-- The names under which a table has something. -/
def present (fields : List (String × Lua)) : List String :=
  (fields.map Prod.fst).dedup.filter fun name => !(Lua.lookup fields name).isNil

/-- Every key of a table that has something, with what it has. -/
def entriesOf (items : List Lua) (fields : List (String × Lua)) : List (Lua × Lua) :=
  (items.zipIdx.filter fun x => !x.1.isNil).map (fun x => (.num (.int (x.2 + 1)), x.1)) ++
    (present fields).map fun name => (.str name, Lua.lookup fields name)

def sorted (names : List String) : List String := names.mergeSort fun a b => a ≤ b

/-- The items up to a border of a table: there is one at the end, and none after it. -/
def counted (items : List Lua) : List Lua := items.rdropWhile Lua.isNil

/-- `#v`, of a string and of a table. -/
def lenOf : Lua → Option ℕ
  | .str s => some s.utf8ByteSize
  | .table items _ => some (counted items).length
  | _ => none

/-- `string.format("%d", n)`, of a whole number that is the fourth argument. -/
def formatInt (n : ℕ) : Except String String :=
  if n < 2 ^ 63 then .ok (toString n)
  else .error "bad argument #4 to 'format' (number has no integer representation)"

/-! ### The walk -/

section

variable (lib : Library) (registry : Option (List (String × Schema)))
  (node : Lua → Schema → Path → Walk)

def fail (path : Path) (detail : String) : Walk := .found { path, detail }

def checkTuple (items : List Schema) (xs : List Lua) (path : Path) : Walk :=
  (Checked.all
    (fun p : Schema × ℕ =>
      if (xs.getD p.2 .nil).isNil then
        fail (.index (p.2 + 1) :: path)
          ("missing tuple element (expected " ++ toString items.length ++ " elements)")
      else node (xs.getD p.2 .nil) p.1 (.index (p.2 + 1) :: path))
    items.zipIdx).andThen
  (if (xs.getD items.length .nil).isNil then .pass
  else fail path ("tuple has more than " ++ toString items.length ++ " elements"))

/-- A bound that is there, of what it is about. -/
def checkBound {α : Type} (bound : Option α) (broken : α → Bool) (text : α → String) (path : Path) :
    Walk :=
  match bound with
  | some b => if broken b then fail path (text b) else .pass
  | none => .pass

def checkNumber (value : Lua) (b : Bounds) (path : Path) : Walk :=
  if b.min.isNone && b.max.isNone then .pass
  else match value with
    | .num n =>
        (checkBound b.min n.lt (fun m => lib.tostring value ++ " is below min " ++
          lib.tostring (.num m)) path).andThen
        (checkBound b.max (fun m => m.lt n) (fun m => lib.tostring value ++ " is above max " ++
          lib.tostring (.num m)) path)
    | value => fail path ("min/max bound applies to number, got " ++ value.type)

/-- The least length, which is written down only where it is not reached. -/
def checkMinLen (bound : Option ℕ) (len : ℕ) (path : Path) : Walk :=
  match bound with
  | some m =>
      if len < m then
        match formatInt m with
        | .ok text => fail path ("length " ++ toString len ++ " is below min_len " ++ text)
        | .error e => .error e
      else .pass
  | none => .pass

def checkLength (value : Lua) (b : Bounds) (path : Path) : Walk :=
  if b.minLen.isNone && b.maxLen.isNone then .pass
  else match lenOf value with
    | some len =>
        (checkMinLen b.minLen len path).andThen
        (checkBound b.maxLen (fun m => m < len) (fun m => "length " ++ toString len ++
          " is above max_len " ++ toString m) path)
    | none => fail path ("min_len/max_len bound applies to string or table, got " ++ value.type)

/-- Bounds hold of what is there, after the schema in them does. -/
def checkBounded (value : Lua) (inner : Schema) (b : Bounds) (path : Path) : Walk :=
  (node value inner path).andThen
    (if value.isNil then .pass
    else (checkNumber lib value b path).andThen (checkLength value b path))

/-- What is under a declared name. -/
def checkField (fields : List (String × Schema)) (entries : List (String × Lua)) (path : Path)
    (name : String) : Walk :=
  match find fields name with
  | some schema => node (Lua.lookup entries name) schema (.field name :: path)
  | none => .pass

/-- The names under which a table has something undeclared. -/
def extra (fields : List (String × Schema)) (entries : List (String × Lua)) (path : Path) :
    List String :=
  sorted ((lib.names path (present entries)).filter fun name => (find fields name).isNone)

def checkExtra (fields : List (String × Schema)) (entries : List (String × Lua)) (path : Path) :
    Walk :=
  match extra lib fields entries path with
  | name :: _ => fail (.field name :: path) "unexpected field"
  | [] => .pass

/-- The fields in the order of their names, and then what is not one of them. -/
def checkShape (fields : List (String × Schema)) (isOpen : Bool) (value : Lua) (path : Path) :
    Walk :=
  match value with
  | .table _ entries =>
      (Checked.all (checkField node fields entries path)
        (sorted (lib.names path (fields.map Prod.fst).dedup))).andThen
      (if isOpen then .pass else checkExtra lib fields entries path)
  | value => fail path ("expected table, got " ++ value.type)

def checkDiscriminated (tag : String) (variants : List (String × List (String × Schema) × Bool))
    (value : Lua) (path : Path) : Walk :=
  match value with
  | .table _ entries =>
      let tagValue := Lua.lookup entries tag
      if tagValue.isNil then fail path ("missing discriminant field '" ++ tag ++ "'")
      else match tagValue.asStr.bind (find variants) with
        | some (fields, isOpen) => checkShape lib node fields isOpen value path
        | none =>
            let keys := sorted (lib.names path (variants.map Prod.fst).dedup)
            fail path ("discriminant '" ++ tag ++ "' = " ++ lib.quoted (lib.tostring tagValue) ++
              " not in [" ++ ", ".intercalate (keys.map lib.quoted) ++ "]")
  | value => fail path ("expected table, got " ++ value.type)

/-- The first variant that has no violation; else each with its own. -/
def checkAnyOf (value : Lua) (path : Path) : List Schema → List String → Walk
  | [], reasons => fail path ("no variant matched\n" ++ "\n".intercalate reasons)
  | variant :: rest, reasons =>
      (node value variant path).orElse fun r =>
        checkAnyOf value path rest
          (reasons ++ ["  variant " ++ toString (reasons.length + 1) ++ ": " ++ r.reason])

def checkMap (key val : Schema) (value : Lua) (path : Path) : Walk :=
  match value with
  | .table items fields =>
      Checked.all
        (fun e : Lua × Lua =>
          (node e.1 key (.key (lib.tostring e.1) :: path)).andThen
            (node e.2 val (.value (lib.tostring e.1) :: path)))
        (lib.entries path (entriesOf items fields))
  | value => fail path ("expected table (map), got " ++ value.type)

def checkRef (name : String) (value : Lua) (path : Path) : Walk :=
  match registry with
  | none =>
      .error ("lshape.check: default registry not bound. Set M.default_registry = <\x7bname → " ++
        "schema\x7d> at host load time, or pass opts.registry explicitly at the call site.")
  | some schemas =>
      match find schemas name with
      | some schema => node value schema path
      | none => fail path ("unresolved ref '" ++ name ++ "'")

def checkPattern (pat : String) (value : Lua) (path : Path) : Walk :=
  match value with
  | .str s =>
      match lib.matchesPattern s pat with
      | .ok found =>
          if found then .pass
          else fail path ("string " ++ lib.quoted s ++ " does not match pattern " ++ lib.quoted pat)
      | .error e => .error e
  | value => fail path ("expected string (pattern), got " ++ value.type)

/-- The handler of each kind, over a walk of the values inside. -/
def handle (value : Lua) (schema : Schema) (path : Path) : Walk :=
  match schema with
  | .any => .pass
  | .prim type =>
      if value.type = type then .pass
      else fail path ("expected " ++ type ++ ", got " ++ value.type)
  | .integer =>
      match value with
      | .num n =>
          if n.isWhole then .pass
          else fail path ("expected integer, got " ++ lib.tostring value)
      | value => fail path ("expected integer, got " ++ value.type)
  | .tuple items =>
      match value with
      | .table xs _ => checkTuple node items xs path
      | value => fail path ("expected table (tuple), got " ++ value.type)
  | .bounded inner bounds => checkBounded lib node value inner bounds path
  | .optional inner => if value.isNil then .pass else node value inner path
  | .described inner _ => node value inner path
  | .arrayOf elem =>
      match value with
      | .table xs _ =>
          Checked.all (fun x : Lua × ℕ => node x.1 elem (.index (x.2 + 1) :: path))
            (counted xs).zipIdx
      | value => fail path ("expected table (array), got " ++ value.type)
  | .shape fields isOpen => checkShape lib node fields isOpen value path
  | .discriminated tag variants => checkDiscriminated lib node tag variants value path
  | .anyOf variants => checkAnyOf node value path variants []
  | .mapOf key val => checkMap lib node key val value path
  | .ref name => checkRef registry node name value path
  | .pattern pat => checkPattern lib pat value path
  | .oneOf values =>
      if values.any value.eq then .pass
      else
        let parts := values.map fun v => match v with
          | .str s => lib.quoted s
          | v => lib.tostring v
        fail path ("expected one of [" ++ ", ".intercalate parts ++ "], got " ++ lib.tostring value)

end

def MAX_CHECK_DEPTH : ℕ := 256

section

variable (lib : Library) (registry : Option (List (String × Schema)))

/-- The walk, with so many levels left. -/
def checkNode : ℕ → Lua → Schema → Path → Walk
  | 0, _, _, path =>
      .error ("lshape.check: recursion depth exceeded at " ++ Path.render path ++ " (> " ++
        toString MAX_CHECK_DEPTH ++ "; cycle in schema or value?)")
  | levels + 1, value, schema, path => handle lib registry (checkNode levels) value schema path

/-- `check`, of a schema that is there. -/
def check (value : Lua) (schema : Schema) : Walk :=
  checkNode lib registry MAX_CHECK_DEPTH value schema []

end

end AgentBlock.Lshape
