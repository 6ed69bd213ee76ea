/-
AgentBlock/Lshape/Build.lean

Schemas from the combinators, and reflection on them.

`chain_describes` — a chain of bounds, on a schema that has none, adds to what the
schema says just the bounds of the chain.

`chain_in_any_order` — the calls of such a chain can be made in any order.

`fields_describe` — the fields that reflection gives, each optional or not, say of a
table what the shape says.
-/
import AgentBlock.Lshape.Decides

namespace AgentBlock.Lshape

variable {lib : Library} {registry : Option (List (String × Schema))}
  {fits : String → String → Bool}

/-! ### Bounds -/

inductive BoundKey where
  | min
  | max
  | minLen
  | maxLen
  deriving DecidableEq

namespace BoundKey

def text : BoundKey → String
  | min => "min"
  | max => "max"
  | minLen => "min_len"
  | maxLen => "max_len"

def isLength : BoundKey → Bool
  | minLen | maxLen => true
  | _ => false

end BoundKey

/-- The length that a whole number is. -/
def lengthOf : LuaNumber → ℕ
  | .int n => n.toNat
  | .float q => ⌊q⌋.toNat
  | _ => 0

namespace Bounds

/-- `out[key] = n`. -/
def set (b : Bounds) : BoundKey → LuaNumber → Bounds
  | .min, n => { b with min := some n }
  | .max, n => { b with max := some n }
  | .minLen, n => { b with minLen := some (lengthOf n) }
  | .maxLen, n => { b with maxLen := some (lengthOf n) }

/-- `out.min > out.max`. -/
def valuesCross (b : Bounds) : Option (LuaNumber × LuaNumber) :=
  (b.min.bind fun m => b.max.map fun n => (m, n)).filter fun p => p.2.lt p.1

def lengthsCross (b : Bounds) : Option (ℕ × ℕ) :=
  (b.minLen.bind fun m => b.maxLen.map fun n => (m, n)).filter fun p => p.2 < p.1

end Bounds

/-- A schema without the bounds that are on it, and these. -/
def unbounded : Schema → Schema × Bounds
  | .bounded inner b => (inner, b)
  | schema => (schema, {})

/-- `with_bound`. -/
def withBound (lib : Library) (self : Schema) (key : BoundKey) (n : Lua) : Except String Schema :=
  match n with
  | .num n =>
      if key.isLength && (n.lt (.int 0) || !n.isWhole) then
        .error ("lshape.t: " ++ key.text ++ " expects a non-negative integer")
      else
        let out := (unbounded self).2.set key n
        match out.valuesCross, out.lengthsCross with
        | some (least, most), _ =>
            .error ("lshape.t: min (" ++ lib.tostring (.num least) ++ ") must be <= max (" ++
              lib.tostring (.num most) ++ ")")
        | none, some (least, most) =>
            .error ("lshape.t: min_len (" ++ toString least ++ ") must be <= max_len (" ++
              toString most ++ ")")
        | none, none => .ok (.bounded (unbounded self).1 out)
  | n => .error ("lshape.t: " ++ key.text ++ " expects number, got " ++ n.type)

/-- One bound after the other. -/
def withBounds (lib : Library) (self : Schema) : List (BoundKey × Lua) → Except String Schema
  | [] => .ok self
  | call :: rest => withBound lib self call.1 call.2 >>= fun out => withBounds lib out rest

/-! ### Optional fields -/

def isOptional : Schema → Schema
  | .optional inner => .optional inner
  | schema => .optional schema

/-- `partial`: the shape with every field optional. -/
def partialShape (fields : List (String × Schema)) (isOpen : Bool) : Schema :=
  .shape (fields.map fun e => (e.1, isOptional e.2)) isOpen

/-- What is under the wrappers, whether one of them is optional, and the outermost text. -/
def unwrap : Schema → Schema × Bool × Option String
  | .optional inner => ((unwrap inner).1, true, (unwrap inner).2.2)
  | .described inner doc => ((unwrap inner).1, (unwrap inner).2.1, some doc)
  | schema => (schema, false, none)

structure Field where
  name : String
  type : Schema
  optional : Bool
  doc : Option String

/-- `reflect.fields`, the names in the order that `pairs` gives them in. -/
def reflectFields (names : List String) (fields : List (String × Schema)) : List Field :=
  (sorted names).filterMap fun name => (find fields name).map fun schema =>
    { name, type := (unwrap schema).1, optional := (unwrap schema).2.1,
      doc := (unwrap schema).2.2 }

/-! ### What a bound says -/

/-- What a bound says of what is there. -/
def BoundKey.Holds : BoundKey → LuaNumber → Lua → Prop
  | .min, m, v => ∃ n, v = .num n ∧ n.lt m = false
  | .max, m, v => ∃ n, v = .num n ∧ m.lt n = false
  | .minLen, m, v => ∃ len, lenOf v = some len ∧ lengthOf m ≤ len
  | .maxLen, m, v => ∃ len, lenOf v = some len ∧ len ≤ lengthOf m

namespace Bounds

variable {b : Bounds} {key key' : BoundKey} {n : LuaNumber} {v : Lua}

/-- What the bound under a key says, if there is one. -/
def HoldsAt (b : Bounds) (v : Lua) : BoundKey → Prop
  | .min => ∀ m, b.min = some m → ∃ n, v = .num n ∧ n.lt m = false
  | .max => ∀ m, b.max = some m → ∃ n, v = .num n ∧ m.lt n = false
  | .minLen => ∀ m, b.minLen = some m → ∃ len, lenOf v = some len ∧ m ≤ len
  | .maxLen => ∀ m, b.maxLen = some m → ∃ len, lenOf v = some len ∧ len ≤ m

theorem holdsOfNumber_iff : b.HoldsOfNumber v ↔ b.HoldsAt v .min ∧ b.HoldsAt v .max := by
  constructor
  · rintro (⟨hmin, hmax⟩ | ⟨n, rfl, hmin, hmax⟩)
    · simp [HoldsAt, hmin, hmax]
    · exact ⟨fun m hm => ⟨n, rfl, hmin m hm⟩, fun m hm => ⟨n, rfl, hmax m hm⟩⟩
  · rintro ⟨hmin, hmax⟩
    by_cases hnone : b.min = none ∧ b.max = none
    · exact .inl hnone
    · have hnum : ∃ n, v = .num n := by
        rcases hm : b.min with - | m
        · obtain ⟨m, hm'⟩ := Option.ne_none_iff_exists'.mp fun h => hnone ⟨hm, h⟩
          obtain ⟨n, hn, -⟩ := hmax m hm'
          exact ⟨n, hn⟩
        · obtain ⟨n, hn, -⟩ := hmin m hm
          exact ⟨n, hn⟩
      obtain ⟨n, rfl⟩ := hnum
      refine .inr ⟨n, rfl, ?_, ?_⟩
      · intro m hm
        obtain ⟨n', hn', h⟩ := hmin m hm
        cases hn'
        exact h
      · intro m hm
        obtain ⟨n', hn', h⟩ := hmax m hm
        cases hn'
        exact h

theorem holdsOfLength_iff : b.HoldsOfLength v ↔ b.HoldsAt v .minLen ∧ b.HoldsAt v .maxLen := by
  constructor
  · rintro (⟨hmin, hmax⟩ | ⟨len, hlen, hmin, hmax⟩)
    · simp [HoldsAt, hmin, hmax]
    · exact ⟨fun m hm => ⟨len, hlen, hmin m hm⟩, fun m hm => ⟨len, hlen, hmax m hm⟩⟩
  · rintro ⟨hmin, hmax⟩
    by_cases hnone : b.minLen = none ∧ b.maxLen = none
    · exact .inl hnone
    · have hlen : ∃ len, lenOf v = some len := by
        rcases hm : b.minLen with - | m
        · obtain ⟨m, hm'⟩ := Option.ne_none_iff_exists'.mp fun h => hnone ⟨hm, h⟩
          obtain ⟨len, hlen, -⟩ := hmax m hm'
          exact ⟨len, hlen⟩
        · obtain ⟨len, hlen, -⟩ := hmin m hm
          exact ⟨len, hlen⟩
      obtain ⟨len, hlen⟩ := hlen
      refine .inr ⟨len, hlen, ?_, ?_⟩
      · intro m hm
        obtain ⟨len', hlen', h⟩ := hmin m hm
        rw [hlen] at hlen'
        cases hlen'
        exact h
      · intro m hm
        obtain ⟨len', hlen', h⟩ := hmax m hm
        rw [hlen] at hlen'
        cases hlen'
        exact h

theorem holds_iff : b.Holds v ↔ v.isNil = true ∨ ∀ key, b.HoldsAt v key := by
  rw [Holds, holdsOfNumber_iff, holdsOfLength_iff]
  refine or_congr_right ⟨?_, fun h => ⟨⟨h _, h _⟩, h _, h _⟩⟩
  rintro ⟨⟨hmin, hmax⟩, hminLen, hmaxLen⟩ key
  cases key with
  | min => exact hmin
  | max => exact hmax
  | minLen => exact hminLen
  | maxLen => exact hmaxLen

theorem holdsAt_set_self : (b.set key n).HoldsAt v key ↔ key.Holds n v := by
  cases key <;> simp [HoldsAt, set, BoundKey.Holds]

theorem holdsAt_set_of_ne (h : key' ≠ key) : (b.set key n).HoldsAt v key' ↔ b.HoldsAt v key' := by
  cases key <;> cases key' <;> first | exact absurd rfl h | rfl

theorem set_comm {m : LuaNumber} (h : key' ≠ key) :
    (b.set key n).set key' m = (b.set key' m).set key n := by
  cases key <;> cases key' <;> first | exact absurd rfl h | rfl

/-- All the bounds of a chain. -/
def setAll (b : Bounds) (ns : List (BoundKey × LuaNumber)) : Bounds :=
  ns.foldl (fun b c => b.set c.1 c.2) b

/-- A chain says what each of its bounds says, and leaves the others. -/
theorem holdsAt_setAll {ns : List (BoundKey × LuaNumber)} (hkeys : (ns.map Prod.fst).Nodup) :
    (∀ key, (b.setAll ns).HoldsAt v key) ↔
      (∀ c ∈ ns, c.1.Holds c.2 v) ∧ ∀ key, key ∉ ns.map Prod.fst → b.HoldsAt v key := by
  induction ns generalizing b with
  | nil => simp [setAll]
  | cons c ns ih =>
      obtain ⟨hc, hns⟩ := List.nodup_cons.mp hkeys
      rw [setAll, List.foldl_cons, ← setAll, ih hns, List.forall_mem_cons, and_assoc,
        and_left_comm]
      refine and_congr_right fun _ => ⟨?_, ?_⟩
      · intro h
        refine ⟨holdsAt_set_self.mp (h c.1 hc), ?_⟩
        intro key hkey
        obtain ⟨hne, hkey⟩ := not_or.mp (mt List.mem_cons.mpr hkey)
        exact (holdsAt_set_of_ne hne).mp (h key hkey)
      · rintro ⟨hself, hothers⟩ key hkey
        by_cases hne : key = c.1
        · rw [hne]
          exact holdsAt_set_self.mpr hself
        · exact (holdsAt_set_of_ne hne).mpr (hothers key fun h => (List.mem_cons.mp h).elim hne hkey)

theorem setAll_perm {ns ns' : List (BoundKey × LuaNumber)} (hkeys : (ns.map Prod.fst).Nodup)
    (h : ns.Perm ns') : b.setAll ns = b.setAll ns' := by
  refine h.foldl_eq' ?_ b
  intro x hx y hy z
  by_cases hxy : x.1 = y.1
  · rw [List.inj_on_of_nodup_map hkeys hx hy hxy]
  · exact set_comm (Ne.symm hxy)

/-- No bound excludes another. -/
def Consistent (b : Bounds) : Prop := b.valuesCross = none ∧ b.lengthsCross = none

theorem valuesCross_eq_none : b.valuesCross = none ↔
    ∀ m n, b.min = some m → b.max = some n → n.lt m = false := by
  cases hmin : b.min <;> cases hmax : b.max <;>
    simp [valuesCross, hmin, hmax, Option.filter_eq_none_iff]

theorem lengthsCross_eq_none : b.lengthsCross = none ↔
    ∀ m n, b.minLen = some m → b.maxLen = some n → m ≤ n := by
  cases hmin : b.minLen <;> cases hmax : b.maxLen <;>
    simp [lengthsCross, hmin, hmax, Option.filter_eq_none_iff]

/-- Nothing is under the key. -/
def Lacks (b : Bounds) : BoundKey → Prop
  | .min => b.min = none
  | .max => b.max = none
  | .minLen => b.minLen = none
  | .maxLen => b.maxLen = none

theorem lacks_set_of_ne (h : key' ≠ key) (hlacks : b.Lacks key') : (b.set key n).Lacks key' := by
  cases key <;> cases key' <;> first | exact absurd rfl h | exact hlacks

/-- A bound that is new only excludes more. -/
theorem Consistent.of_set (hlacks : b.Lacks key) (h : (b.set key n).Consistent) :
    b.Consistent := by
  obtain ⟨hvalues, hlengths⟩ := h
  rw [valuesCross_eq_none] at hvalues
  rw [lengthsCross_eq_none] at hlengths
  refine ⟨valuesCross_eq_none.mpr ?_, lengthsCross_eq_none.mpr ?_⟩
  · intro m m' hm hm'
    cases key with
    | min => exact absurd (hm.symm.trans hlacks) (Option.some_ne_none m)
    | max => exact absurd (hm'.symm.trans hlacks) (Option.some_ne_none m')
    | minLen => exact hvalues m m' hm hm'
    | maxLen => exact hvalues m m' hm hm'
  · intro m m' hm hm'
    cases key with
    | min => exact hlengths m m' hm hm'
    | max => exact hlengths m m' hm hm'
    | minLen => exact absurd (hm.symm.trans hlacks) (Option.some_ne_none m)
    | maxLen => exact absurd (hm'.symm.trans hlacks) (Option.some_ne_none m')

theorem Consistent.of_setAll {ns : List (BoundKey × LuaNumber)}
    (hkeys : (ns.map Prod.fst).Nodup) (hlacks : ∀ key ∈ ns.map Prod.fst, b.Lacks key)
    (h : (b.setAll ns).Consistent) : b.Consistent := by
  induction ns generalizing b with
  | nil => exact h
  | cons c ns ih =>
      obtain ⟨hc, hns⟩ := List.nodup_cons.mp hkeys
      obtain ⟨hlacksc, hlacksns⟩ := List.forall_mem_cons.mp hlacks
      refine .of_set hlacksc (ih hns ?_ h)
      intro key hkey
      exact lacks_set_of_ne (fun heq => hc (heq ▸ hkey)) (hlacksns key hkey)

end Bounds

/-! ### A chain of bounds -/

/-- A number that a bound can be. -/
def BoundKey.Takes (key : BoundKey) (n : LuaNumber) : Prop :=
  key.isLength = true → n.lt (.int 0) = false ∧ n.isWhole = true

theorem withBound_num {self : Schema} {key : BoundKey} {n : LuaNumber} {out : Schema} :
    withBound lib self key (.num n) = .ok out ↔ key.Takes n ∧
      ((unbounded self).2.set key n).Consistent ∧
        out = .bounded (unbounded self).1 ((unbounded self).2.set key n) := by
  have htakes : (key.isLength && (n.lt (.int 0) || !n.isWhole)) = true ↔ ¬ key.Takes n := by
    unfold BoundKey.Takes
    cases key.isLength <;> cases n.lt (.int 0) <;> cases n.isWhole <;> simp
  rw [withBound]
  by_cases htake : key.Takes n
  · rw [if_neg fun h => htakes.mp h htake]
    cases hvalues : ((unbounded self).2.set key n).valuesCross with
    | some p => simp [Bounds.Consistent, hvalues]
    | none =>
        cases hlengths : ((unbounded self).2.set key n).lengthsCross with
        | some p => simp [Bounds.Consistent, hvalues, hlengths]
        | none => simp [Bounds.Consistent, hvalues, hlengths, htake, eq_comm]
  · rw [if_pos (htakes.mpr htake)]
    simp [htake]

theorem eq_num_of_withBound {self : Schema} {key : BoundKey} {n : Lua} {out : Schema}
    (h : withBound lib self key n = .ok out) : ∃ x, n = .num x := by
  cases n with
  | num x => exact ⟨x, rfl⟩
  | _ => cases h

theorem withBounds_cons {self : Schema} {call : BoundKey × Lua} {rest : List (BoundKey × Lua)}
    {out : Schema} : withBounds lib self (call :: rest) = .ok out ↔
      ∃ mid, withBound lib self call.1 call.2 = .ok mid ∧ withBounds lib mid rest = .ok out := by
  rw [withBounds]
  cases withBound lib self call.1 call.2 with
  | error e => simp [Bind.bind, Except.bind]
  | ok mid => simp [Bind.bind, Except.bind]

/-- The calls of a chain of numbers. -/
def asCalls (ns : List (BoundKey × LuaNumber)) : List (BoundKey × Lua) :=
  ns.map fun c => (c.1, .num c.2)

theorem asCalls_keys (ns : List (BoundKey × LuaNumber)) :
    (asCalls ns).map Prod.fst = ns.map Prod.fst := by
  rw [asCalls, List.map_map]
  rfl

theorem asCalls_injective :
    Function.Injective fun c : BoundKey × LuaNumber => (c.1, Lua.num c.2) := by
  intro c d h
  obtain ⟨hkey, hnum⟩ := Prod.mk.inj h
  exact Prod.ext hkey (Lua.num.inj hnum)

theorem nums_of_withBounds {self : Schema} {calls : List (BoundKey × Lua)} {out : Schema}
    (h : withBounds lib self calls = .ok out) : ∀ c ∈ calls, ∃ x, c.2 = .num x := by
  induction calls generalizing self with
  | nil =>
      intro c hc
      cases hc
  | cons call rest ih =>
      obtain ⟨mid, hmid, hrest⟩ := withBounds_cons.mp h
      exact List.forall_mem_cons.mpr ⟨eq_num_of_withBound hmid, ih hrest⟩

theorem eq_asCalls {calls : List (BoundKey × Lua)} (h : ∀ c ∈ calls, ∃ x, c.2 = .num x) :
    ∃ ns, calls = asCalls ns := by
  induction calls with
  | nil => exact ⟨[], rfl⟩
  | cons call rest ih =>
      obtain ⟨⟨x, hx⟩, hrest⟩ := List.forall_mem_cons.mp h
      obtain ⟨ns, rfl⟩ := ih hrest
      refine ⟨(call.1, x) :: ns, ?_⟩
      show _ = (call.1, Lua.num x) :: asCalls ns
      rw [← hx]

/-- Of a chain of new bounds only the end matters. -/
theorem withBounds_iff {self inner out : Schema} {b : Bounds} {ns : List (BoundKey × LuaNumber)}
    (hself : unbounded self = (inner, b)) (hkeys : (ns.map Prod.fst).Nodup)
    (hlacks : ∀ key ∈ ns.map Prod.fst, b.Lacks key) (hne : ns ≠ []) :
    withBounds lib self (asCalls ns) = .ok out ↔
      (∀ c ∈ ns, c.1.Takes c.2) ∧ (b.setAll ns).Consistent ∧
        out = .bounded inner (b.setAll ns) := by
  induction ns generalizing self b with
  | nil => exact absurd rfl hne
  | cons c ns ih =>
      obtain ⟨hc, hns⟩ := List.nodup_cons.mp hkeys
      obtain ⟨-, hlacksns⟩ := List.forall_mem_cons.mp hlacks
      have hlacks' : ∀ key ∈ ns.map Prod.fst, (b.set c.1 c.2).Lacks key := by
        intro key hkey
        exact Bounds.lacks_set_of_ne (fun heq => hc (heq ▸ hkey)) (hlacksns key hkey)
      have hmid : ∀ mid, withBound lib self c.1 (.num c.2) = .ok mid ↔ c.1.Takes c.2 ∧
          (b.set c.1 c.2).Consistent ∧ mid = .bounded inner (b.set c.1 c.2) := by
        intro mid
        rw [withBound_num, hself]
      rw [asCalls, List.map_cons, ← asCalls, withBounds_cons, List.forall_mem_cons,
        Bounds.setAll, List.foldl_cons, ← Bounds.setAll]
      by_cases hnil : ns = []
      · subst hnil
        constructor
        · rintro ⟨mid, hwith, hrest⟩
          obtain ⟨htake, hcons, rfl⟩ := (hmid mid).mp hwith
          refine ⟨⟨htake, ?_⟩, hcons, (Except.ok.inj hrest).symm⟩
          intro x hx
          cases hx
        · rintro ⟨⟨htake, -⟩, hcons, rfl⟩
          exact ⟨_, (hmid _).mpr ⟨htake, hcons, rfl⟩, rfl⟩
      · have hrest := @ih (.bounded inner (b.set c.1 c.2)) (b.set c.1 c.2) rfl hns hlacks' hnil
        constructor
        · rintro ⟨mid, hwith, hmore⟩
          obtain ⟨htake, -, rfl⟩ := (hmid mid).mp hwith
          obtain ⟨htakes, hcons, hout⟩ := hrest.mp hmore
          exact ⟨⟨htake, htakes⟩, hcons, hout⟩
        · rintro ⟨⟨htake, htakes⟩, hcons, hout⟩
          -- bounds that are consistent in the end were so after each call
          have hfirst := hcons.of_setAll hns hlacks'
          exact ⟨_, (hmid _).mpr ⟨htake, hfirst, rfl⟩, hrest.mpr ⟨htakes, hcons, hout⟩⟩

theorem lacks_empty (key : BoundKey) : ({} : Bounds).Lacks key := by
  cases key <;> rfl

/-- **What a chain of bounds describes**, on a schema that has none: the values that
the schema describes and that are within each.  No key is called twice, as a second
call replaces the first. -/
theorem chain_describes {self out : Schema} {calls : List (BoundKey × Lua)}
    (hself : unbounded self = (self, {})) (hkeys : (calls.map Prod.fst).Nodup)
    (h : withBounds lib self calls = .ok out) (v : Lua) :
    Conforms fits registry out v ↔ Conforms fits registry self v ∧
      (v.isNil = true ∨ ∀ c ∈ calls, ∃ n, c.2 = .num n ∧ c.1.Holds n v) := by
  obtain ⟨ns, rfl⟩ := eq_asCalls (nums_of_withBounds h)
  rw [asCalls_keys] at hkeys
  by_cases hnil : ns = []
  · subst hnil
    obtain rfl := Except.ok.inj h
    simp [asCalls]
  · obtain ⟨-, -, rfl⟩ := (withBounds_iff hself hkeys (fun key _ => lacks_empty key) hnil).mp h
    have hholds : (({} : Bounds).setAll ns).Holds v ↔
        v.isNil = true ∨ ∀ c ∈ ns, c.1.Holds c.2 v := by
      rw [Bounds.holds_iff, Bounds.holdsAt_setAll hkeys, and_iff_left]
      intro key _
      cases key <;> simp [Bounds.HoldsAt]
    have hcalls : (∀ c ∈ asCalls ns, ∃ n, c.2 = .num n ∧ c.1.Holds n v) ↔
        ∀ c ∈ ns, c.1.Holds c.2 v := by
      rw [asCalls, List.forall_mem_map]
      simp
    rw [hcalls, ← hholds]
    constructor
    · intro hconf
      cases hconf with
      | bounded _ _ _ hinner hb => exact ⟨hinner, hb⟩
    · rintro ⟨hinner, hb⟩
      exact .bounded self _ v hinner hb

/-- `T.number:max(150):min(0)`, of 151. -/
theorem chain_describes_ages :
    ¬ Conforms asStored.fits none
      (.bounded (.prim "number") { min := some (.int 0), max := some (.int 150) })
      (.num (.int 151)) := by
  have hiff := @chain_describes asStored none asStored.fits (.prim "number")
    (.bounded (.prim "number") { min := some (.int 0), max := some (.int 150) })
    [(.max, .num (.int 150)), (.min, .num (.int 0))] rfl (by decide) rfl (.num (.int 151))
  intro h
  obtain ⟨n, hn, n', hn', hmax⟩ :=
    (hiff.mp h).2.resolve_left Bool.false_ne_true _ List.mem_cons_self
  obtain rfl : LuaNumber.int 150 = n := Lua.num.inj hn
  obtain rfl : LuaNumber.int 151 = n' := Lua.num.inj hn'
  exact absurd hmax (by decide)

/-- **A chain of bounds, on a schema that has none, can be made in any order**, and
is refused in any order: a bound is checked against the one it pairs with whichever
comes first. -/
theorem chain_in_any_order {self out : Schema} {calls calls' : List (BoundKey × Lua)}
    (hself : unbounded self = (self, {})) (hkeys : (calls.map Prod.fst).Nodup)
    (hperm : calls.Perm calls') :
    withBounds lib self calls = .ok out ↔ withBounds lib self calls' = .ok out := by
  have hone : ∀ {calls calls' : List (BoundKey × Lua)}, (calls.map Prod.fst).Nodup →
      calls.Perm calls' → withBounds lib self calls = .ok out →
        withBounds lib self calls' = .ok out := by
    intro calls calls' hkeys hperm h
    have hnums := nums_of_withBounds h
    obtain ⟨ns, rfl⟩ := eq_asCalls hnums
    obtain ⟨ns', rfl⟩ := eq_asCalls fun c hc => hnums c (hperm.mem_iff.mpr hc)
    have hns : ns.Perm ns' := (List.map_perm_map_iff asCalls_injective).mp hperm
    by_cases hnil : ns = []
    · subst hnil
      obtain rfl := List.nil_perm.mp hns
      exact h
    · rw [asCalls_keys] at hkeys
      have hkeys' := (hns.map Prod.fst).nodup_iff.mp hkeys
      have hnil' : ns' ≠ [] := fun h => hnil (List.perm_nil.mp (h ▸ hns))
      rw [withBounds_iff hself hkeys (fun key _ => lacks_empty key) hnil,
        Bounds.setAll_perm hkeys hns] at h
      refine (withBounds_iff hself hkeys' (fun key _ => lacks_empty key) hnil').mpr ⟨?_, h.2⟩
      intro c hc
      exact h.1 c (hns.mem_iff.mpr hc)
  exact ⟨hone hkeys hperm, hone ((hperm.map Prod.fst).nodup_iff.mp hkeys) hperm.symm⟩

theorem chain_in_any_order_ages :
    withBounds asStored (.prim "number") [(.min, .num (.int 0)), (.max, .num (.int 150))] =
      .ok (.bounded (.prim "number") { min := some (.int 0), max := some (.int 150) }) :=
  (@chain_in_any_order asStored _ _ [(.max, .num (.int 150)), (.min, .num (.int 0))] _ rfl
    (by decide) (List.Perm.swap _ _ _)).mp rfl

/-! ### Reflection -/

theorem conforms_optional {schema : Schema} {v : Lua} :
    Conforms fits registry (.optional schema) v ↔
      v.isNil = true ∨ Conforms fits registry schema v := by
  constructor
  · intro h
    cases h with
    | absent => exact .inl rfl
    | present _ _ h => exact .inr h
  · rintro (hnil | h)
    · cases v with
      | nil => exact .absent schema
      | _ => cases hnil
    · exact .present schema v h

theorem conforms_described {schema : Schema} {doc : String} {v : Lua} :
    Conforms fits registry (.described schema doc) v ↔ Conforms fits registry schema v := by
  refine ⟨?_, .described schema doc v⟩
  intro h
  cases h with
  | described _ _ _ h => exact h

/-- The wrappers say that there may be nothing, or else nothing. -/
theorem unwrap_describes (schema : Schema) (v : Lua) :
    Conforms fits registry schema v ↔
      (unwrap schema).2.1 = true ∧ v.isNil = true ∨ Conforms fits registry (unwrap schema).1 v := by
  induction schema using unwrap.induct with
  | case1 inner ih =>
      rw [unwrap, conforms_optional, ih]
      simp only [true_and]
      tauto
  | case2 inner doc ih => rw [unwrap, conforms_described, ih]
  | case3 schema hoptional hdescribed =>
      rw [unwrap]
      · simp
      · exact hoptional
      · exact hdescribed

theorem isOptional_describes {schema : Schema} {v : Lua} :
    Conforms fits registry (isOptional schema) v ↔
      v.isNil = true ∨ Conforms fits registry schema v := by
  unfold isOptional
  split
  · rw [conforms_optional]
    tauto
  · exact conforms_optional

theorem conforms_shape {fields : List (String × Schema)} {isOpen : Bool} {xs : List Lua}
    {entries : List (String × Lua)} :
    Conforms fits registry (.shape fields isOpen) (.table xs entries) ↔
      (∀ name schema, find fields name = some schema →
        Conforms fits registry schema (Lua.lookup entries name)) ∧
      (isOpen = false → Closed fields entries) := by
  constructor
  · intro h
    cases h with
    | shape _ _ _ _ heach hclosed => exact ⟨heach, hclosed⟩
  · rintro ⟨heach, hclosed⟩
    exact .shape fields isOpen xs entries heach hclosed

theorem find_map {α β : Type} (f : α → β) (entries : List (String × α)) (name : String) :
    find (entries.map fun e => (e.1, f e.2)) name = (find entries name).map f := by
  rw [find, find, List.find?_map, Option.map_map, Option.map_map]
  rfl

/-- In a partial shape each field may be missing, and else is what it was. -/
theorem partialShape_describes {fields : List (String × Schema)} {isOpen : Bool} {xs : List Lua}
    {entries : List (String × Lua)} :
    Conforms fits registry (partialShape fields isOpen) (.table xs entries) ↔
      (∀ name schema, find fields name = some schema →
        (Lua.lookup entries name).isNil = true ∨
          Conforms fits registry schema (Lua.lookup entries name)) ∧
      (isOpen = false → Closed fields entries) := by
  have hclosed : Closed (fields.map fun e => (e.1, isOptional e.2)) entries ↔
      Closed fields entries := by
    simp only [Closed, find_map, Option.isSome_map]
  rw [partialShape, conforms_shape, hclosed]
  refine and_congr_left fun _ => ⟨?_, ?_⟩
  · intro h name schema hfind
    refine isOptional_describes.mp (h name _ ?_)
    rw [find_map, hfind, Option.map_some]
  · intro h name schema hfind
    rw [find_map] at hfind
    obtain ⟨schema', hfind', rfl⟩ := Option.map_eq_some_iff.mp hfind
    exact isOptional_describes.mpr (h name schema' hfind')

theorem mem_reflectFields {names : List String} {fields : List (String × Schema)} {f : Field} :
    f ∈ reflectFields names fields ↔ f.name ∈ names ∧ ∃ schema, find fields f.name = some schema ∧
      f.type = (unwrap schema).1 ∧ f.optional = (unwrap schema).2.1 ∧
        f.doc = (unwrap schema).2.2 := by
  simp only [reflectFields, List.mem_filterMap, mem_sorted, Option.map_eq_some_iff]
  constructor
  · rintro ⟨name, hname, schema, hfind, rfl⟩
    exact ⟨hname, schema, hfind, rfl, rfl, rfl⟩
  · rintro ⟨hname, schema, hfind, htype, hoptional, hdoc⟩
    refine ⟨f.name, hname, schema, hfind, ?_⟩
    rw [← htype, ← hoptional, ← hdoc]

/-- **The fields of a shape, as reflection gives them, say of a table what the shape
says**, in whatever order they are given: an optional schema is read as its own
without it, and a field of that name. -/
theorem fields_describe {fields : List (String × Schema)} {isOpen : Bool} {names : List String}
    (hnames : names.Perm (fields.map Prod.fst).dedup) {xs : List Lua}
    {entries : List (String × Lua)} :
    Conforms fits registry (.shape fields isOpen) (.table xs entries) ↔
      (∀ f ∈ reflectFields names fields,
        f.optional = true ∧ (Lua.lookup entries f.name).isNil = true ∨
          Conforms fits registry f.type (Lua.lookup entries f.name)) ∧
      (isOpen = false → ∀ name, (Lua.lookup entries name).isNil = false →
        ∃ f ∈ reflectFields names fields, f.name = name) := by
  have hmem : ∀ name schema, find fields name = some schema → name ∈ names := by
    intro name schema hfind
    rw [hnames.mem_iff, List.mem_dedup]
    exact List.mem_map_of_mem (mem_map_of_find hfind)
  rw [conforms_shape]
  refine and_congr ⟨?_, ?_⟩ (forall_congr' fun _ => forall_congr' fun name => ?_)
  · intro h f hf
    obtain ⟨-, schema, hfind, htype, hoptional, -⟩ := mem_reflectFields.mp hf
    rw [htype, hoptional]
    exact (unwrap_describes schema _).mp (h f.name schema hfind)
  · intro h name schema hfind
    have hf := h ⟨name, (unwrap schema).1, (unwrap schema).2.1, (unwrap schema).2.2⟩
      (mem_reflectFields.mpr ⟨hmem name schema hfind, schema, hfind, rfl, rfl, rfl⟩)
    exact (unwrap_describes schema _).mpr hf
  · refine forall_congr' fun _ => ⟨?_, ?_⟩
    · intro hsome
      obtain ⟨schema, hfind⟩ := Option.isSome_iff_exists.mp hsome
      exact ⟨⟨name, _, _, _⟩, mem_reflectFields.mpr
        ⟨hmem name schema hfind, schema, hfind, rfl, rfl, rfl⟩, rfl⟩
    · rintro ⟨f, hf, rfl⟩
      obtain ⟨-, schema, hfind, -⟩ := mem_reflectFields.mp hf
      rw [hfind]
      rfl

/-- A name that is there, and a field that may be missing and is not. -/
theorem fields_describe_optional :
    Conforms asStored.fits none
      (.shape [("name", .prim "string"), ("next", .optional .integer)] false)
      (.table [] [("name", .str "ada"), ("next", .num (.int 2))]) := by
  refine (@fields_describe none asStored.fits _ _ ["next", "name"] (by decide) _ _).mpr ⟨?_, ?_⟩
  · intro f hf
    obtain ⟨hname, schema, hfind, htype, -, -⟩ := mem_reflectFields.mp hf
    obtain ⟨name, type, optional, doc⟩ := f
    rcases List.mem_pair.mp hname with rfl | rfl
    · obtain rfl : Schema.optional .integer = schema := Option.some.inj hfind
      obtain rfl : type = .integer := htype
      exact .inr (.integer (.int 2) rfl)
    · obtain rfl : Schema.prim "string" = schema := Option.some.inj hfind
      obtain rfl : type = .prim "string" := htype
      exact .inr (.prim "string" _ rfl)
  · intro _ name hname
    have hin : name ∈ ["name", "next"] := by
      by_contra hnot
      rw [Lua.lookup_of_not_mem hnot] at hname
      cases hname
    rcases List.mem_pair.mp hin with rfl | rfl
    · exact ⟨⟨"name", _, _, _⟩, mem_reflectFields.mpr ⟨by decide, _, rfl, rfl, rfl, rfl⟩, rfl⟩
    · exact ⟨⟨"next", _, _, _⟩, mem_reflectFields.mpr ⟨by decide, _, rfl, rfl, rfl, rfl⟩, rfl⟩

end AgentBlock.Lshape
