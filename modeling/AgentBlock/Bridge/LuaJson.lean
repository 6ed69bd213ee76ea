/-
AgentBlock/Bridge/LuaJson.lean

JSON values as a program reads them that the bridge handed over.

A null is the sentinel and stays in the table it is in; an empty array is tagged,
and so is no empty object; the fields of a table are those of the members, in
their order.
-/
import AgentBlock.Bridge.JsonTrip

namespace AgentBlock.Bridge

mutual

/-- What a program reads of a value of the bridge. -/
def LuaVal.read : LuaVal → Lua
  | .nil => .nil
  | .null => .null
  | .bool b => .bool b
  | .num n => .num n
  | .str s => .str s
  | .bytes => .other "string"
  | .table tagged items fields =>
      .table (readItems items) ((if tagged then Lua.arrayTag else []) ++ readFields fields)
  | .other type => .other type

def readItems : List LuaVal → List Lua
  | [] => []
  | item :: items => item.read :: readItems items

/-- The fields under a name. -/
def readFields : List (LuaKey × LuaVal) → List (String × Lua)
  | [] => []
  | (.str key, field) :: fields => (key, field.read) :: readFields fields
  | (_, _) :: fields => readFields fields

end

/-- A JSON value at this depth, as the Lua value it becomes. -/
def jsonToLua (depth : ℕ) (v : Json) : Except Lua Lua :=
  match toLuaVal id depth v with
  | .ok built => .ok built.read
  | .error e => .error (.str e)

section

variable {depth : ℕ}

theorem jsonToLua_ok {x : Json} {v : Lua} :
    jsonToLua depth x = .ok v ↔ ∃ built, toLuaVal id depth x = .ok built ∧ v = built.read := by
  rw [jsonToLua]
  cases toLuaVal id depth x with
  | error e => simp
  | ok built => simp [eq_comm]

/-- The items of an array convert each on its own. -/
theorem readItems_itemsIn {xs : List Json} {items : List Lua} :
    (∃ built, itemsIn id depth xs = .ok built ∧ items = readItems built) ↔
      List.Forall₂ (fun x item => jsonToLua depth x = .ok item) xs items := by
  induction xs generalizing items with
  | nil =>
      constructor
      · rintro ⟨built, h, rfl⟩
        cases h
        exact .nil
      · intro h
        cases h
        exact ⟨[], rfl, rfl⟩
  | cons x xs ih =>
      constructor
      · rintro ⟨built, h, rfl⟩
        rw [itemsIn] at h
        obtain ⟨item, hitem, h⟩ := Except.bind_eq_ok.mp h
        obtain ⟨rest, hrest, h⟩ := Except.bind_eq_ok.mp h
        cases h
        exact .cons (jsonToLua_ok.mpr ⟨item, hitem, rfl⟩) (ih.mp ⟨rest, hrest, rfl⟩)
      · intro h
        cases h with
        | cons hx hxs =>
            obtain ⟨item, hitem, rfl⟩ := jsonToLua_ok.mp hx
            obtain ⟨rest, hrest, rfl⟩ := ih.mpr hxs
            refine ⟨item :: rest, ?_, rfl⟩
            rw [itemsIn, hitem]
            simp only [hrest]
            rfl

theorem jsonToLua_arr (hdepth : depth ≤ maxDepth) {xs : List Json} {v : Lua} :
    jsonToLua depth (.arr xs) = .ok v ↔ ∃ items,
      List.Forall₂ (fun x item => jsonToLua (depth + 1) x = .ok item) xs items ∧
        v = Lua.hostArray items := by
  have hread : ∀ built, itemsIn id (depth + 1) xs = .ok built →
      (LuaVal.table xs.isEmpty built []).read = Lua.hostArray (readItems built) := by
    intro built h
    rcases xs with - | ⟨x, xs⟩
    · cases h
      rfl
    · obtain ⟨item, rest, rfl⟩ := List.exists_of_length_succ built (itemsIn_length h)
      rfl
  rw [jsonToLua_ok, toLuaVal, if_neg (Nat.not_lt.mpr hdepth)]
  simp only [← readItems_itemsIn, Except.map_eq_ok]
  constructor
  · rintro ⟨_, ⟨built, h, rfl⟩, rfl⟩
    exact ⟨_, ⟨built, h, rfl⟩, hread built h⟩
  · rintro ⟨_, ⟨built, h, rfl⟩, rfl⟩
    exact ⟨_, ⟨built, h, rfl⟩, (hread built h).symm⟩

/-- A member that was met is read under its key. -/
theorem lookup_readFields {members : Obj} {fields : List (LuaKey × LuaVal)} {key : String} {x : Json}
    (h : List.Forall₂ (fun m f => f.1 = .str m.1 ∧ toLuaVal id depth m.2 = .ok f.2) members fields)
    (hx : members.get? key = some x) :
    jsonToLua depth x = .ok (Lua.lookup (readFields fields) key) := by
  induction h with
  | nil => cases hx
  | @cons m f members fields hm _ ih =>
      obtain ⟨k, y⟩ := m
      obtain ⟨key', field⟩ := f
      obtain ⟨rfl, hy⟩ : key' = .str k ∧ toLuaVal id depth y = .ok field := hm
      rw [Obj.get?] at hx
      rw [readFields, Lua.lookup]
      split at hx
      · next hk =>
        cases hx
        rw [if_pos hk]
        exact jsonToLua_ok.mpr ⟨field, hy, rfl⟩
      · next hk =>
        rw [if_neg hk]
        exact ih hx

/-- A member of an object converts on its own. -/
theorem jsonToLua_get {members : Obj} {v : Lua} (h : jsonToLua depth (.obj members) = .ok v) :
    v.isIndexable = true ∧ ∀ key x, members.get? key = some x →
      jsonToLua (depth + 1) x = .ok (v.get key) := by
  obtain ⟨built, hbuilt, rfl⟩ := jsonToLua_ok.mp h
  rw [toLuaVal] at hbuilt
  split at hbuilt
  · cases hbuilt
  · obtain ⟨fields, hfields, rfl⟩ := Except.map_eq_ok.mp hbuilt
    exact ⟨rfl, fun key x hx => lookup_readFields (membersIn_forall hfields) hx⟩

theorem jsonToLua_str {s : String} {v : Lua} (h : jsonToLua depth (.str s) = .ok v) :
    v = .str s := by
  obtain ⟨built, hbuilt, rfl⟩ := jsonToLua_ok.mp h
  rw [toLuaVal] at hbuilt
  split at hbuilt <;> cases hbuilt
  rfl

end

end AgentBlock.Bridge
