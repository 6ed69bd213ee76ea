/-
AgentBlock/Lib/Lua.lean

Lua values as a program reads and builds them.

A table is its sequence and its string-keyed fields; metatables, other keys
and the identity of a table are not part of a value, but that a host tags the
empty arrays it builds (`emptyArray`).  `null` is the light userdata a host
stands in for JSON's null: it is a value like any other, and indexing it raises.
Reading that can raise is `Except Lua`, with the raised value as the error.
-/
import AgentBlock.Lib.Except
import Mathlib.Data.Rat.Defs

/-- A Lua number: an integer, or a float, which may not be finite. -/
inductive LuaNumber where
  | int (n : Int)
  | float (q : Rat)
  /-- The float `-0.0`, which is equal to `0.0` and written otherwise. -/
  | negZero
  | inf (negative : Bool)
  | nan
  deriving DecidableEq

/-- A Lua value. -/
inductive Lua where
  | nil
  | null
  | bool (b : Bool)
  | num (n : LuaNumber)
  | str (s : String)
  | table (items : List Lua) (fields : List (String × Lua))
  | other (type : String)

/-- Whether two numbers are equal; an integer and a float may be. -/
def LuaNumber.eq : LuaNumber → LuaNumber → Bool
  | int a, int b => a = b
  | int a, float b => (a : Rat) = b
  | int a, negZero => a = 0
  | float a, int b => a = (b : Rat)
  | float a, float b => a = b
  | float a, negZero => a = 0
  | negZero, int b => b = 0
  | negZero, float b => b = 0
  | negZero, negZero => true
  | inf a, inf b => a = b
  | _, _ => false

/-- `a <= b`. -/
def LuaNumber.le : LuaNumber → LuaNumber → Bool
  | int a, int b => a ≤ b
  | int a, float b => (a : Rat) ≤ b
  | int a, negZero => a ≤ 0
  | float a, int b => a ≤ (b : Rat)
  | float a, float b => a ≤ b
  | float a, negZero => a ≤ 0
  | negZero, int b => 0 ≤ b
  | negZero, float b => 0 ≤ b
  | negZero, negZero => true
  | nan, _ => false
  | _, nan => false
  | inf a, inf b => a || !b
  | inf a, _ => a
  | _, inf b => !b

theorem LuaNumber.eq_symm (a b : LuaNumber) : a.eq b = b.eq a := by
  cases a <;> cases b <;> simp only [eq, eq_comm]

namespace Lua

/-- What `type` answers. -/
def type : Lua → String
  | nil => "nil"
  | null => "userdata"
  | bool _ => "boolean"
  | num _ => "number"
  | str _ => "string"
  | table _ _ => "table"
  | other type => type

def isNil : Lua → Bool
  | nil => true
  | _ => false

def isTable : Lua → Bool
  | table _ _ => true
  | _ => false

/-- What a condition takes for true. -/
def truthy : Lua → Bool
  | nil => false
  | bool b => b
  | _ => true

/-- `v or other`. -/
def orElse (v other : Lua) : Lua := if v.truthy then v else other

/-- The string a value is. -/
def asStr : Lua → Option String
  | str s => some s
  | _ => none

/-- The value under a key, `nil` where there is none. -/
def lookup : List (String × Lua) → String → Lua
  | [], _ => nil
  | (k, v) :: rest, key => if k = key then v else lookup rest key

/-- A field of a value that is known to be a table; anything else has none. -/
def get : Lua → String → Lua
  | table _ fields, key => lookup fields key
  | _, _ => nil

/-- What indexing a value that has no fields raises. -/
def indexError (v : Lua) : Lua := str ("attempt to index a " ++ v.type ++ " value")

/-- `v[key]`, by a name a string does not answer to. -/
def index (v : Lua) (key : String) : Except Lua Lua :=
  match v with
  | table _ fields => .ok (lookup fields key)
  | str _ => .ok nil
  | v => .error (indexError v)

/-- The values a loop over `ipairs(v)` takes. -/
def ipairs (v : Lua) : Except Lua (List Lua) :=
  match v with
  | table items _ => .ok items
  | str _ => .ok []
  | v => .error (indexError v)

/-- Whether indexing a value does not raise. -/
def isIndexable : Lua → Bool
  | table _ _ => true
  | str _ => true
  | _ => false

/-- Set a field, in place. -/
def setField : List (String × Lua) → String → Lua → List (String × Lua)
  | [], key, v => [(key, v)]
  | (k, w) :: rest, key, v => if k = key then (k, v) :: rest else (k, w) :: setField rest key v

/-- `v[key] = w`; only a table is assigned to. -/
def set (v : Lua) (key : String) (w : Lua) : Lua :=
  match v with
  | table items fields => table items (setField fields key w)
  | v => v

/-- A table constructor with these fields; one that is given `nil` is not
there. -/
def record (fields : List (String × Lua)) : Lua :=
  table [] (fields.filter fun f => !f.2.isNil)

/-- An array. -/
def array (items : List Lua) : Lua := table items []

/-- The tag of an array.  No table holds `nil` under a key, so such an entry can
stand for it: whatever reads the table meets nothing there. -/
def arrayTag : List (String × Lua) := [("array", nil)]

/-- The empty array a host hands over, which it tags. -/
def emptyArray : Lua := table [] arrayTag

/-- An array a host hands over. -/
def hostArray (items : List Lua) : Lua := if items.isEmpty then emptyArray else array items

/-- Whether two values are equal.  Two tables never are: each was built on its
own. -/
def eq : Lua → Lua → Bool
  | nil, nil => true
  | null, null => true
  | bool a, bool b => a = b
  | num a, num b => a.eq b
  | str a, str b => a = b
  | _, _ => false

section

variable {v w : Lua} {key : String}

@[simp] theorem lookup_setField_self (fields : List (String × Lua)) :
    lookup (setField fields key w) key = w := by
  induction fields with
  | nil => simp [setField, lookup]
  | cons f rest ih =>
      obtain ⟨k, u⟩ := f
      simp only [setField]
      split
      · rename_i hk
        simp [lookup, hk]
      · rename_i hk
        simp [lookup, hk, ih]

theorem lookup_setField_of_ne (fields : List (String × Lua)) {other : String}
    (h : key ≠ other) : lookup (setField fields key w) other = lookup fields other := by
  induction fields with
  | nil => simp [setField, lookup, h]
  | cons f rest ih =>
      obtain ⟨k, u⟩ := f
      simp only [setField]
      split
      · rename_i hk
        simp [lookup, hk, h]
      · simp [lookup, ih]

theorem lookup_of_not_mem {fields : List (String × Lua)} (h : key ∉ fields.map Prod.fst) :
    lookup fields key = nil := by
  induction fields with
  | nil => rfl
  | cons f rest ih =>
      obtain ⟨k, u⟩ := f
      simp only [List.map_cons, List.mem_cons, not_or] at h
      simp only [lookup, Ne.symm h.1, if_false]
      exact ih h.2

/-- A key that was given `nil` reads as one that was not given. -/
theorem get_record {fields : List (String × Lua)} (h : (fields.map Prod.fst).Nodup) :
    (record fields).get key = lookup fields key := by
  show lookup (fields.filter fun f => !f.2.isNil) key = _
  induction fields with
  | nil => rfl
  | cons f rest ih =>
      obtain ⟨k, u⟩ := f
      have hrest := ih (List.nodup_cons.mp h).2
      simp only [List.filter_cons]
      split
      · simp only [lookup, hrest]
      · rename_i hu
        simp only [lookup, hrest]
        split
        · rename_i hk
          rw [← hk, lookup_of_not_mem (List.nodup_cons.mp h).1]
          cases u <;> simp_all [isNil]
        · rfl

@[simp] theorem get_set_self (items : List Lua) (fields : List (String × Lua)) :
    ((table items fields).set key w).get key = w :=
  lookup_setField_self fields

theorem get_set_of_ne {other : String} (h : key ≠ other) :
    (v.set key w).get other = v.get other := by
  cases v with
  | table items fields => exact lookup_setField_of_ne fields h
  | _ => rfl

theorem index_ok {u : Lua} (h : v.index key = .ok u) : u = v.get key := by
  cases v <;> cases h <;> rfl

theorem index_of_isIndexable (h : v.isIndexable = true) : v.index key = .ok (v.get key) := by
  cases v <;> first | rfl | cases h

theorem index_of_not_isIndexable (h : v.isIndexable = false) :
    v.index key = .error (indexError v) := by
  cases v <;> first | rfl | cases h

theorem eq_symm (v w : Lua) : eq v w = eq w v := by
  cases v <;> cases w <;> simp only [eq, eq_comm, LuaNumber.eq_symm]

@[simp] theorem eq_str {s : String} : eq v (str s) = true ↔ v = str s := by
  cases v <;> simp [eq]

end

end Lua
