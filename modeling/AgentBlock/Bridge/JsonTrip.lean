/-
AgentBlock/Bridge/JsonTrip.lean

A JSON value on its way into Lua and back.

A table here keeps whether it is tagged as an array, and its fields in the order
a walk meets them, which is the table's own (`order`, a parameter).  Only an empty
array is tagged.

Main results:

* `trip_eq` — within the depth both ways allow, what comes back is the value with
  every integer past the signed ones made a float (`floated`);
* `survives_iff` — so a value survives exactly if it has no such integer, or
  nests too deep to be converted at all.
-/
import AgentBlock.Lib.Double
import AgentBlock.Lib.Json
import AgentBlock.Lib.Lua

namespace AgentBlock.Bridge

open Except (bind_eq_ok map_eq_ok)

/-! ### Values -/

/-- A key of a table. -/
inductive LuaKey where
  | str (s : String)
  | int (n : ℤ)
  /-- A float, and what `to_string` writes of it. -/
  | float (shown : String)
  | other (type : String)

/-- A value as the bridge sees it. -/
inductive LuaVal where
  | nil
  /-- The null pointer. -/
  | null
  | bool (b : Bool)
  | num (n : LuaNumber)
  | str (s : String)
  /-- A string that is no text. -/
  | bytes
  /-- A table: whether it is tagged as an array, its sequence, and its fields. -/
  | table (tagged : Bool) (items : List LuaVal) (fields : List (LuaKey × LuaVal))
  | other (type : String)

/-! ### Into Lua -/

def maxDepth : ℕ := 128

/-- The number a JSON number becomes: an integer of 64 bits with a sign is one,
and any other number is the float nearest to it. -/
def numberIn : JsonNumber → LuaNumber
  | .int n =>
      if -9223372036854775808 ≤ n ∧ n ≤ 9223372036854775807 then .int n else .float (double n)
  | .float q => .float q
  | .negZero => .negZero

section

variable (order : List (LuaKey × LuaVal) → List (LuaKey × LuaVal))

mutual

/-- `json_to_lua_inner`. -/
def toLuaVal (depth : ℕ) (v : Json) : Except String LuaVal :=
  if maxDepth < depth then .error "JSON nesting too deep (limit: 128)"
  else match v with
    | .null => .ok .null
    | .bool b => .ok (.bool b)
    | .num n => .ok (.num (numberIn n))
    | .str s => .ok (.str s)
    | .arr xs => (itemsIn (depth + 1) xs).map fun items => .table xs.isEmpty items []
    | .obj members => (membersIn (depth + 1) members).map fun fields => .table false [] (order fields)

def itemsIn (depth : ℕ) : List Json → Except String (List LuaVal)
  | [] => .ok []
  | x :: xs => do
      let item ← toLuaVal depth x
      let items ← itemsIn depth xs
      .ok (item :: items)

def membersIn (depth : ℕ) : List (String × Json) → Except String (List (LuaKey × LuaVal))
  | [] => .ok []
  | (key, x) :: members => do
      let field ← toLuaVal depth x
      let fields ← membersIn depth members
      .ok ((.str key, field) :: fields)

end

end

/-! ### Back -/

/-- The number a Lua number becomes. -/
def numberBack : LuaNumber → Except String JsonNumber
  | .int n => .ok (.int n)
  | .float q => .ok (.float q)
  | .negZero => .ok .negZero
  | .inf negative => .error ("cannot convert " ++ (if negative then "-inf" else "inf") ++
      " to JSON number")
  | .nan => .error "cannot convert NaN to JSON number"

/-- The name of a member under a key. -/
def memberName : LuaKey → Except String String
  | .str s => .ok s
  | .int n => .ok (toString n)
  | .float shown => .ok shown
  | .other type => .error ("unsupported table key type for JSON: " ++ type)

mutual

/-- `lua_to_json_inner`. -/
def toJson (depth : ℕ) (v : LuaVal) : Except String Json :=
  if maxDepth < depth then .error "Lua table nesting too deep for JSON (limit: 128)"
  else match v with
    | .nil => .ok .null
    | .null => .ok .null
    | .bool b => .ok (.bool b)
    | .num n => (numberBack n).map .num
    | .str s => .ok (.str s)
    | .bytes => .error "invalid utf-8"
    | .table tagged items fields =>
        -- the array metatable is what an empty array is told from an empty object by
        if items ≠ [] ∨ tagged then (itemsBack (depth + 1) items).map .arr
        else (fieldsBack (depth + 1) [] fields).map .obj
    | .other type => .error ("unsupported type for JSON conversion: " ++ type)

def itemsBack (depth : ℕ) : List LuaVal → Except String (List Json)
  | [] => .ok []
  | item :: items => do
      let x ← toJson depth item
      let xs ← itemsBack depth items
      .ok (x :: xs)

/-- The members of an object, past those that are there. -/
def fieldsBack (depth : ℕ) (members : Obj) : List (LuaKey × LuaVal) → Except String Obj
  | [] => .ok members
  | (key, field) :: fields => do
      let name ← memberName key
      let x ← toJson depth field
      fieldsBack depth (members.insert name x) fields

end

/-- Into Lua and back. -/
def trip (order : List (LuaKey × LuaVal) → List (LuaKey × LuaVal)) (v : Json) : Except String Json :=
  toLuaVal order 0 v >>= toJson 0

/-! ### What a value is -/

mutual

/-- How many levels of arrays and objects a value has. -/
def nesting : Json → ℕ
  | .null => 0
  | .bool _ => 0
  | .num _ => 0
  | .str _ => 0
  | .arr xs => nestingItems xs
  | .obj members => nestingMembers members

def nestingItems : List Json → ℕ
  | [] => 0
  | x :: xs => max (nesting x + 1) (nestingItems xs)

def nestingMembers : List (String × Json) → ℕ
  | [] => 0
  | m :: members => max (nesting m.2 + 1) (nestingMembers members)

end

mutual

/-- A value as a reader builds it: each integer has 64 bits, with a sign or
without, and each object has its keys once, in order. -/
def WellFormed : Json → Prop
  | .null => True
  | .bool _ => True
  | .num (.int n) => -9223372036854775808 ≤ n ∧ n < 18446744073709551616
  | .num (.float _) => True
  | .num .negZero => True
  | .str _ => True
  | .arr xs => WellFormedItems xs
  | .obj members => (members.map Prod.fst).Pairwise (· < ·) ∧ WellFormedMembers members

def WellFormedItems : List Json → Prop
  | [] => True
  | x :: xs => WellFormed x ∧ WellFormedItems xs

def WellFormedMembers : List (String × Json) → Prop
  | [] => True
  | m :: members => WellFormed m.2 ∧ WellFormedMembers members

end

mutual

/-- A value with each integer that is too large for a sign made a float. -/
def floated : Json → Json
  | .null => .null
  | .bool b => .bool b
  | .num n => .num (match numberIn n with | .int n => .int n | .float q => .float q | _ => n)
  | .str s => .str s
  | .arr xs => .arr (floatedItems xs)
  | .obj members => .obj (floatedMembers members)

def floatedItems : List Json → List Json
  | [] => []
  | x :: xs => floated x :: floatedItems xs

def floatedMembers : List (String × Json) → List (String × Json)
  | [] => []
  | m :: members => (m.1, floated m.2) :: floatedMembers members

end

mutual

/-- Every integer of a value fits a signed one. -/
def Signed : Json → Prop
  | .null => True
  | .bool _ => True
  | .num (.int n) => n ≤ 9223372036854775807
  | .num (.float _) => True
  | .num .negZero => True
  | .str _ => True
  | .arr xs => SignedItems xs
  | .obj members => SignedMembers members

def SignedItems : List Json → Prop
  | [] => True
  | x :: xs => Signed x ∧ SignedItems xs

def SignedMembers : List (String × Json) → Prop
  | [] => True
  | m :: members => Signed m.2 ∧ SignedMembers members

end

/-! ### One way -/

section

variable {order : List (LuaKey × LuaVal) → List (LuaKey × LuaVal)}

mutual

/-- Too deep a value is not converted. -/
theorem toLuaVal_deep (depth : ℕ) : (v : Json) → maxDepth < depth + nesting v →
    ∃ e, toLuaVal order depth v = .error e
  | .null, h => ⟨_, if_pos h⟩
  | .bool _, h => ⟨_, if_pos h⟩
  | .num _, h => ⟨_, if_pos h⟩
  | .str _, h => ⟨_, if_pos h⟩
  | .arr xs, h => by
      rw [toLuaVal]
      split
      · exact ⟨_, rfl⟩
      · obtain ⟨e, he⟩ := itemsIn_deep depth xs (Nat.le_of_not_lt ‹_›) h
        exact ⟨e, by rw [he]; rfl⟩
  | .obj members, h => by
      rw [toLuaVal]
      split
      · exact ⟨_, rfl⟩
      · obtain ⟨e, he⟩ := membersIn_deep depth members (Nat.le_of_not_lt ‹_›) h
        exact ⟨e, by rw [he]; rfl⟩

theorem itemsIn_deep (depth : ℕ) : (xs : List Json) → depth ≤ maxDepth →
    maxDepth < depth + nestingItems xs → ∃ e, itemsIn order (depth + 1) xs = .error e
  | [], hle, h => absurd h (Nat.not_lt.mpr hle)
  | x :: xs, hle, h => by
      rw [itemsIn]
      cases hx : toLuaVal order (depth + 1) x with
      | error e => exact ⟨e, rfl⟩
      | ok item =>
          have hrest : maxDepth < depth + nestingItems xs := by
            by_contra hrest
            have hdeep : maxDepth < depth + 1 + nesting x := by
              rw [nestingItems] at h
              omega
            obtain ⟨e, he⟩ := toLuaVal_deep (depth + 1) x hdeep
            rw [hx] at he
            cases he
          obtain ⟨e, he⟩ := itemsIn_deep depth xs hle hrest
          exact ⟨e, by simp only [he]; rfl⟩

theorem membersIn_deep (depth : ℕ) : (members : List (String × Json)) → depth ≤ maxDepth →
    maxDepth < depth + nestingMembers members → ∃ e, membersIn order (depth + 1) members = .error e
  | [], hle, h => absurd h (Nat.not_lt.mpr hle)
  | (key, x) :: members, hle, h => by
      rw [membersIn]
      cases hx : toLuaVal order (depth + 1) x with
      | error e => exact ⟨e, rfl⟩
      | ok field =>
          have hrest : maxDepth < depth + nestingMembers members := by
            by_contra hrest
            have hdeep : maxDepth < depth + 1 + nesting x := by
              change maxDepth < depth + max (nesting x + 1) (nestingMembers members) at h
              omega
            obtain ⟨e, he⟩ := toLuaVal_deep (depth + 1) x hdeep
            rw [hx] at he
            cases he
          obtain ⟨e, he⟩ := membersIn_deep depth members hle hrest
          exact ⟨e, by simp only [he]; rfl⟩

end

theorem keys_floatedMembers (members : List (String × Json)) :
    (floatedMembers members).map Prod.fst = members.map Prod.fst := by
  induction members with
  | nil => rfl
  | cons m members ih => exact congrArg (m.1 :: ·) ih

/-- Fields that each give a member give them all. -/
theorem fieldsBack_each {depth : ℕ} {fields : List (LuaKey × LuaVal)} {ms : Obj}
    (h : List.Forall₂ (fun f m => f.1 = .str m.1 ∧ toJson depth f.2 = .ok m.2) fields ms)
    (members : Obj) : fieldsBack depth members fields =
      .ok (ms.foldl (fun (o : Obj) m => o.insert m.1 m.2) members) := by
  induction h generalizing members with
  | nil => rfl
  | @cons f m fields ms hfield _ ih =>
      obtain ⟨key, field⟩ := f
      obtain ⟨rfl, hx⟩ : key = .str m.1 ∧ toJson depth field = .ok m.2 := hfield
      rw [fieldsBack, hx]
      exact ih (members.insert m.1 m.2)

mutual

/-- A value that is not comes back, its large integers floats. -/
theorem toJson_toLuaVal (hperm : ∀ fields, (order fields).Perm fields) (depth : ℕ) : (v : Json) →
    depth + nesting v ≤ maxDepth → WellFormed v →
    ∃ l, toLuaVal order depth v = .ok l ∧ toJson depth l = .ok (floated v)
  | .null, h, _ => ⟨.null, if_neg (Nat.not_lt.mpr h), if_neg (Nat.not_lt.mpr h)⟩
  | .bool b, h, _ => ⟨.bool b, if_neg (Nat.not_lt.mpr h), if_neg (Nat.not_lt.mpr h)⟩
  | .num n, h, _ => by
      have hle : depth ≤ maxDepth := h
      refine ⟨.num (numberIn n), if_neg (Nat.not_lt.mpr hle), ?_⟩
      rw [toJson, if_neg (Nat.not_lt.mpr hle), floated]
      cases n with
      | int n =>
          rw [numberIn]
          split <;> rfl
      | float q => rfl
      | negZero => rfl
  | .str s, h, _ => ⟨.str s, if_neg (Nat.not_lt.mpr h), if_neg (Nat.not_lt.mpr h)⟩
  | .arr xs, h, hv => by
      have hle : depth ≤ maxDepth := Nat.le_of_add_right_le h
      obtain ⟨items, hin, hback, hempty⟩ := itemsBack_itemsIn hperm depth xs h hv
      refine ⟨.table xs.isEmpty items [], ?_, ?_⟩
      · rw [toLuaVal, if_neg (Nat.not_lt.mpr hle), hin]
        rfl
      · have hdeclared : items ≠ [] ∨ xs.isEmpty = true := by
          rcases eq_or_ne xs [] with rfl | hne
          · exact Or.inr rfl
          · exact Or.inl fun h => hne (hempty.mp h)
        rw [toJson, if_neg (Nat.not_lt.mpr hle), if_pos hdeclared, hback]
        rfl
  | .obj members, h, hv => by
      have hle : depth ≤ maxDepth := Nat.le_of_add_right_le h
      obtain ⟨fields, hin, heach⟩ := membersIn_each hperm depth members h hv.2
      obtain ⟨ms, hback, hms⟩ := List.perm_comp_forall₂ (hperm fields) heach
      refine ⟨.table false [] (order fields), ?_, ?_⟩
      · rw [toLuaVal, if_neg (Nat.not_lt.mpr hle), hin]
        rfl
      · have hsorted : ((floatedMembers members).map Prod.fst).Pairwise (· < ·) := by
          rw [keys_floatedMembers]
          exact hv.1
        have hobject : ¬(([] : List LuaVal) ≠ [] ∨ false = true) := by simp
        rw [toJson, if_neg (Nat.not_lt.mpr hle), if_neg hobject, fieldsBack_each hback,
          Obj.foldl_insert hsorted hms]
        rfl

theorem itemsBack_itemsIn (hperm : ∀ fields, (order fields).Perm fields) (depth : ℕ) :
    (xs : List Json) → depth + nestingItems xs ≤ maxDepth → WellFormedItems xs →
    ∃ items, itemsIn order (depth + 1) xs = .ok items ∧
      itemsBack (depth + 1) items = .ok (floatedItems xs) ∧ (items = [] ↔ xs = [])
  | [], _, _ => ⟨[], rfl, rfl, iff_of_true rfl rfl⟩
  | x :: xs, h, hv => by
      rw [nestingItems] at h
      obtain ⟨item, hitem, hx⟩ := toJson_toLuaVal hperm (depth + 1) x (by omega) hv.1
      obtain ⟨items, hitems, hxs, -⟩ := itemsBack_itemsIn hperm depth xs (by omega) hv.2
      refine ⟨item :: items, ?_, ?_, iff_of_false (List.cons_ne_nil _ _) (List.cons_ne_nil _ _)⟩
      · rw [itemsIn, hitem]
        simp only [hitems]
        rfl
      · rw [itemsBack, hx]
        simp only [hxs]
        rfl

/-- Each member on its own. -/
theorem membersIn_each (hperm : ∀ fields, (order fields).Perm fields) (depth : ℕ) :
    (members : List (String × Json)) → depth + nestingMembers members ≤ maxDepth →
    WellFormedMembers members →
    ∃ fields, membersIn order (depth + 1) members = .ok fields ∧
      List.Forall₂ (fun f m => f.1 = .str m.1 ∧ toJson (depth + 1) f.2 = .ok m.2) fields
        (floatedMembers members)
  | [], _, _ => ⟨[], rfl, .nil⟩
  | (key, x) :: members, h, hv => by
      change depth + max (nesting x + 1) (nestingMembers members) ≤ maxDepth at h
      obtain ⟨field, hfield, hx⟩ := toJson_toLuaVal hperm (depth + 1) x (by omega) hv.1
      obtain ⟨fields, hfields, heach⟩ := membersIn_each hperm depth members (by omega) hv.2
      refine ⟨(.str key, field) :: fields, ?_, .cons ⟨rfl, hx⟩ heach⟩
      rw [membersIn, hfield]
      simp only [hfields]
      rfl

end

mutual

theorem floated_eq_iff : (v : Json) → WellFormed v → (floated v = v ↔ Signed v)
  | .null, _ => iff_of_true rfl trivial
  | .bool _, _ => iff_of_true rfl trivial
  | .num (.float _), _ => iff_of_true rfl trivial
  | .num .negZero, _ => iff_of_true rfl trivial
  | .str _, _ => iff_of_true rfl trivial
  | .num (.int n), hv => by
      have hlo : -9223372036854775808 ≤ n := hv.1
      by_cases h : -9223372036854775808 ≤ n ∧ n ≤ 9223372036854775807
      · have hin : numberIn (.int n) = .int n := if_pos h
        rw [floated, hin]
        exact iff_of_true rfl h.2
      · have hin : numberIn (.int n) = .float (double n) := if_neg h
        rw [floated, hin]
        exact iff_of_false nofun fun hsigned => h ⟨hlo, hsigned⟩
  | .arr xs, hv => by
      rw [floated, Json.arr.injEq]
      exact floatedItems_eq_iff xs hv
  | .obj members, hv => by
      rw [floated, Json.obj.injEq]
      exact floatedMembers_eq_iff members hv.2

theorem floatedItems_eq_iff :
    (xs : List Json) → WellFormedItems xs → (floatedItems xs = xs ↔ SignedItems xs)
  | [], _ => iff_of_true rfl trivial
  | x :: xs, hv => by
      rw [floatedItems, List.cons.injEq]
      exact and_congr (floated_eq_iff x hv.1) (floatedItems_eq_iff xs hv.2)

theorem floatedMembers_eq_iff : (members : List (String × Json)) → WellFormedMembers members →
    (floatedMembers members = members ↔ SignedMembers members)
  | [], _ => iff_of_true rfl trivial
  | (key, x) :: members, hv => by
      rw [floatedMembers, List.cons.injEq, Prod.mk.injEq, and_iff_right rfl]
      exact and_congr (floated_eq_iff x hv.1) (floatedMembers_eq_iff members hv.2)

end

/-! ### Depths -/

mutual

theorem toJson_shallower : (v : LuaVal) → {d d' : ℕ} → d' ≤ d → {j : Json} →
    toJson d v = .ok j → toJson d' v = .ok j
  | .nil, _, _, h, _, hj | .null, _, _, h, _, hj | .bool _, _, _, h, _, hj
  | .num _, _, _, h, _, hj | .str _, _, _, h, _, hj | .bytes, _, _, h, _, hj
  | .other _, _, _, h, _, hj => by
      rw [toJson] at hj ⊢
      split at hj
      · cases hj
      · rwa [if_neg (by omega)]
  | .table tagged items fields, d, d', h, _, hj => by
      rw [toJson] at hj ⊢
      split at hj
      · cases hj
      · rw [if_neg (by omega)]
        by_cases hd : items ≠ [] ∨ tagged = true
        · simp only [if_pos hd] at hj ⊢
          obtain ⟨xs, hxs, rfl⟩ := map_eq_ok.mp hj
          rw [itemsBack_shallower items (Nat.add_le_add_right h 1) hxs]
          rfl
        · simp only [if_neg hd] at hj ⊢
          obtain ⟨o, ho, rfl⟩ := map_eq_ok.mp hj
          rw [fieldsBack_shallower fields (Nat.add_le_add_right h 1) ho]
          rfl

theorem itemsBack_shallower : (items : List LuaVal) → {d d' : ℕ} → d' ≤ d → {xs : List Json} →
    itemsBack d items = .ok xs → itemsBack d' items = .ok xs
  | [], _, _, _, _, hv => hv
  | item :: items, _, _, h, _, hv => by
      rw [itemsBack] at hv ⊢
      obtain ⟨x, hx, hv⟩ := bind_eq_ok.mp hv
      obtain ⟨xs, hxs, hv⟩ := bind_eq_ok.mp hv
      rw [toJson_shallower item h hx, itemsBack_shallower items h hxs]
      exact hv

theorem fieldsBack_shallower : (fields : List (LuaKey × LuaVal)) → {d d' : ℕ} → d' ≤ d →
    {members o : Obj} → fieldsBack d members fields = .ok o → fieldsBack d' members fields = .ok o
  | [], _, _, _, _, _, hv => hv
  | (key, field) :: fields, _, _, h, _, _, hv => by
      rw [fieldsBack] at hv ⊢
      obtain ⟨name, hname, hv⟩ := bind_eq_ok.mp hv
      obtain ⟨x, hx, hv⟩ := bind_eq_ok.mp hv
      rw [hname, toJson_shallower field h hx]
      exact fieldsBack_shallower fields h hv

end

mutual

theorem floated_floated : (j : Json) → floated (floated j) = floated j
  | .null | .bool _ | .str _ => rfl
  | .num (.float _) => rfl
  | .num .negZero => rfl
  | .num (.int n) => by
      by_cases h : -9223372036854775808 ≤ n ∧ n ≤ 9223372036854775807
      · have hin : numberIn (.int n) = .int n := if_pos h
        simp only [floated, hin]
      · have hin : numberIn (.int n) = .float (double n) := if_neg h
        rw [floated, hin]
        rfl
  | .arr xs => congrArg Json.arr (floatedItems_floated xs)
  | .obj members => congrArg Json.obj (floatedMembers_floated members)

theorem floatedItems_floated : (xs : List Json) → floatedItems (floatedItems xs) = floatedItems xs
  | [] => rfl
  | x :: xs => congrArg₂ List.cons (floated_floated x) (floatedItems_floated xs)

theorem floatedMembers_floated : (members : List (String × Json)) →
    floatedMembers (floatedMembers members) = floatedMembers members
  | [] => rfl
  | m :: members =>
      congrArg₂ (fun x xs => (m.1, x) :: xs) (floated_floated m.2) (floatedMembers_floated members)

end

mutual

theorem wellFormed_floated : (j : Json) → WellFormed j → WellFormed (floated j)
  | .null, _ | .bool _, _ | .str _, _ | .num (.float _), _ | .num .negZero, _ => trivial
  | .num (.int n), h => by
      by_cases hn : -9223372036854775808 ≤ n ∧ n ≤ 9223372036854775807
      · have hin : numberIn (.int n) = .int n := if_pos hn
        rw [floated, hin]
        exact h
      · have hin : numberIn (.int n) = .float (double n) := if_neg hn
        rw [floated, hin]
        trivial
  | .arr xs, h => wellFormedItems_floated xs h
  | .obj members, h => ⟨by
      rw [keys_floatedMembers]
      exact h.1, wellFormedMembers_floated members h.2⟩

theorem wellFormedItems_floated : (xs : List Json) → WellFormedItems xs →
    WellFormedItems (floatedItems xs)
  | [], _ => trivial
  | x :: xs, h => ⟨wellFormed_floated x h.1, wellFormedItems_floated xs h.2⟩

theorem wellFormedMembers_floated : (members : List (String × Json)) → WellFormedMembers members →
    WellFormedMembers (floatedMembers members)
  | [], _ => trivial
  | m :: members, h => ⟨wellFormed_floated m.2 h.1, wellFormedMembers_floated members h.2⟩

end

/-- What a value is in Lua goes back, from any depth less than where it was met. -/
theorem toJson_of_toLuaVal (hperm : ∀ fields, (order fields).Perm fields) {d d' : ℕ} {j : Json}
    {v : LuaVal} (hj : WellFormed j) (hv : toLuaVal order d j = .ok v) (h : d' ≤ d) :
    toJson d' v = .ok (floated j) := by
  have hle : d + nesting j ≤ maxDepth := by
    by_contra hdeep
    obtain ⟨e, he⟩ : ∃ e, toLuaVal order d j = .error e :=
      toLuaVal_deep d j (Nat.lt_of_not_le hdeep)
    rw [hv] at he
    cases he
  obtain ⟨w, hw, hback⟩ := toJson_toLuaVal hperm d j hle hj
  cases hv.symm.trans hw
  exact toJson_shallower v h hback

/-! ### Parts -/

variable {depth : ℕ}

theorem itemsIn_length {xs : List Json} {items : List LuaVal}
    (h : itemsIn order depth xs = .ok items) : items.length = xs.length := by
  induction xs generalizing items with
  | nil =>
      cases h
      rfl
  | cons x xs ih =>
      rw [itemsIn] at h
      obtain ⟨item, -, h⟩ := bind_eq_ok.mp h
      obtain ⟨rest, hrest, h⟩ := bind_eq_ok.mp h
      cases h
      exact congrArg (· + 1) (ih hrest)

theorem membersIn_forall {members : List (String × Json)} {fields : List (LuaKey × LuaVal)}
    (h : membersIn order depth members = .ok fields) :
    List.Forall₂ (fun m f => f.1 = .str m.1 ∧ toLuaVal order depth m.2 = .ok f.2)
      members fields := by
  induction members generalizing fields with
  | nil =>
      cases h
      exact .nil
  | cons m members ih =>
      obtain ⟨key, x⟩ := m
      rw [membersIn] at h
      obtain ⟨field, hfield, h⟩ := bind_eq_ok.mp h
      obtain ⟨rest, hrest, h⟩ := bind_eq_ok.mp h
      cases h
      exact .cons ⟨rfl, hfield⟩ (ih hrest)

theorem floatedItems_length (xs : List Json) : (floatedItems xs).length = xs.length := by
  induction xs with
  | nil => rfl
  | cons x xs ih => exact congrArg (· + 1) ih

theorem floatedMembers_eq (members : List (String × Json)) :
    floatedMembers members = members.map fun m => (m.1, floated m.2) := by
  induction members with
  | nil => rfl
  | cons m members ih => exact congrArg ((m.1, floated m.2) :: ·) ih

theorem wellFormed_of_mem {members : List (String × Json)} {m : String × Json}
    (h : WellFormedMembers members) (hm : m ∈ members) : WellFormed m.2 := by
  induction members with
  | nil => exact absurd hm List.not_mem_nil
  | cons m' members ih =>
      rcases List.mem_cons.mp hm with rfl | hm
      · exact h.1
      · exact ih h.2 hm

mutual

/-- What does not nest too deep is converted. -/
theorem toLuaVal_shallow (depth : ℕ) : (j : Json) → depth + nesting j ≤ maxDepth →
    ∃ v, toLuaVal order depth j = .ok v
  | .null, h | .bool _, h | .num _, h | .str _, h => ⟨_, if_neg (Nat.not_lt.mpr h)⟩
  | .arr xs, h => by
      obtain ⟨items, hitems⟩ := itemsIn_shallow depth xs h
      exact ⟨_, by rw [toLuaVal, if_neg (by omega), hitems]; rfl⟩
  | .obj members, h => by
      obtain ⟨fields, hfields⟩ := membersIn_shallow depth members h
      exact ⟨_, by rw [toLuaVal, if_neg (by omega), hfields]; rfl⟩

theorem itemsIn_shallow (depth : ℕ) : (xs : List Json) → depth + nestingItems xs ≤ maxDepth →
    ∃ items, itemsIn order (depth + 1) xs = .ok items
  | [], _ => ⟨[], rfl⟩
  | x :: xs, h => by
      rw [nestingItems] at h
      obtain ⟨item, hitem⟩ := toLuaVal_shallow (depth + 1) x (by omega)
      obtain ⟨items, hitems⟩ := itemsIn_shallow depth xs (by omega)
      exact ⟨item :: items, by rw [itemsIn, hitem, hitems]; rfl⟩

theorem membersIn_shallow (depth : ℕ) : (members : List (String × Json)) →
    depth + nestingMembers members ≤ maxDepth →
    ∃ fields, membersIn order (depth + 1) members = .ok fields
  | [], _ => ⟨[], rfl⟩
  | (key, x) :: members, h => by
      change depth + max (nesting x + 1) (nestingMembers members) ≤ maxDepth at h
      obtain ⟨field, hfield⟩ := toLuaVal_shallow (depth + 1) x (by omega)
      obtain ⟨fields, hfields⟩ := membersIn_shallow depth members (by omega)
      exact ⟨(.str key, field) :: fields, by rw [membersIn, hfield, hfields]; rfl⟩

end

/-- An object that was stored has each key once. -/
theorem keys_of_toJson {v : LuaVal} {members : List (String × Json)}
    (h : toJson depth v = .ok (.obj members)) : (members.map Prod.fst).Pairwise (· < ·) := by
  have hfields : ∀ (d : ℕ) (fields : List (LuaKey × LuaVal)) (o o' : Obj),
      (o.map Prod.fst).Pairwise (· < ·) → fieldsBack d o fields = .ok o' →
      (o'.map Prod.fst).Pairwise (· < ·) := by
    intro d fields
    induction fields with
    | nil =>
        intro o o' ho h
        cases h
        exact ho
    | cons f fields ih =>
        intro o o' ho h
        obtain ⟨key, field⟩ := f
        rw [fieldsBack] at h
        obtain ⟨name, -, h⟩ := bind_eq_ok.mp h
        obtain ⟨x, -, h⟩ := bind_eq_ok.mp h
        exact ih _ _ (Obj.insert_sorted ho) h
  rw [toJson.eq_def] at h
  split at h
  · cases h
  · cases v with
    | table tagged items fields =>
        simp only at h
        split at h
        · obtain ⟨xs, -, h⟩ := map_eq_ok.mp h
          cases h
        · obtain ⟨o, ho, h⟩ := map_eq_ok.mp h
          cases h
          exact hfields _ _ _ _ .nil ho
    | num n =>
        obtain ⟨m, -, h⟩ := map_eq_ok.mp h
        cases h
    | _ => cases h

/-! ### There and back -/

/-- What comes back is the value itself, unless it nests too deep to be
converted. -/
def Survives (order : List (LuaKey × LuaVal) → List (LuaKey × LuaVal)) (v : Json) : Prop :=
  (∃ e, trip order v = .error e ∧ maxDepth < nesting v) ∨ trip order v = .ok v

theorem trip_eq (hperm : ∀ fields, (order fields).Perm fields) {v : Json} (hv : WellFormed v)
    (h : nesting v ≤ maxDepth) : trip order v = .ok (floated v) := by
  obtain ⟨l, hin, hback⟩ := toJson_toLuaVal hperm 0 v (by rwa [Nat.zero_add]) hv
  rw [trip, hin]
  exact hback

/-- **A value survives the trip** exactly if each of its integers fits a signed
one, or it is refused for its depth, in whatever order a table's keys are
enumerated. -/
theorem survives_iff (hperm : ∀ fields, (order fields).Perm fields) {v : Json}
    (hv : WellFormed v) : Survives order v ↔ maxDepth < nesting v ∨ Signed v := by
  rcases Nat.lt_or_ge maxDepth (nesting v) with hdeep | hle
  · obtain ⟨e, he⟩ : ∃ e, toLuaVal order 0 v = .error e :=
      toLuaVal_deep 0 v (by rwa [Nat.zero_add])
    refine iff_of_true (Or.inl ⟨e, ?_, hdeep⟩) (Or.inl hdeep)
    rw [trip, he]
    rfl
  · have htrip := trip_eq hperm hv hle
    rw [Survives, htrip, Except.ok.injEq, floated_eq_iff v hv]
    exact ⟨fun h => h.imp (fun h => h.choose_spec.2) id,
      fun h => h.elim (fun h => absurd h (Nat.not_lt.mpr hle)) Or.inr⟩

end

/-- An object with a key that looks like a number, an empty array and a null, its
fields met backwards. -/
def mixedValue : Json := .obj [("1", .arr [.null, .obj []]), ("a", .arr []), ("b", .num (.int 7))]

theorem mixedValue_survives : Survives List.reverse mixedValue := by
  have hkeys : ["1", "a", "b"].Pairwise (· < ·) := by
    have hchars : (["1", "a", "b"].map String.toList).Pairwise (· < ·) := by decide
    exact (List.pairwise_map.mp hchars).imp String.lt_iff_toList_lt.mpr
  have hwell : WellFormed mixedValue :=
    ⟨hkeys, ⟨trivial, ⟨List.Pairwise.nil, trivial⟩, trivial⟩, trivial,
      (by decide : (-9223372036854775808 : ℤ) ≤ 7 ∧ (7 : ℤ) < 18446744073709551616), trivial⟩
  have hsigned : Signed mixedValue :=
    ⟨⟨trivial, trivial, trivial⟩, trivial, (by decide : (7 : ℤ) ≤ 9223372036854775807), trivial⟩
  exact (survives_iff (fun fields => List.reverse_perm fields) hwell).mpr (Or.inr hsigned)

/-- **The largest integer without a sign** comes back as a float. -/
theorem largest_integer_becomes_float :
    ¬ Survives id (.num (.int 18446744073709551615)) := by
  have htrip : trip id (.num (.int 18446744073709551615)) =
      .ok (.num (.float (double 18446744073709551615))) := rfl
  rintro (⟨e, he, -⟩ | h)
  · rw [htrip] at he
    cases he
  · rw [htrip] at h
    cases h

end AgentBlock.Bridge
