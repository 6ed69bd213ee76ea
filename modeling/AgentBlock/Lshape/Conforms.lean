/-
AgentBlock/Lshape/Conforms.lean

What a schema means, and that the walk finds out.

`Conforms` says which values a schema describes, without a walk: it knows no
order, no path and no depth.

`right_checkNode` — where the walk finds no violation, the schema describes the
value, and where it finds one, it does not.
-/
import AgentBlock.Lshape.Check

namespace AgentBlock.Lshape

variable {lib : Library} {registry : Option (List (String × Schema))}

/-! ### The meaning of a schema -/

/-- A value of a shape's strict keys. -/
def Closed (fields : List (String × Schema)) (entries : List (String × Lua)) : Prop :=
  ∀ name, (Lua.lookup entries name).isNil = false → (find fields name).isSome = true

namespace Bounds

def HoldsOfNumber (b : Bounds) (value : Lua) : Prop :=
  b.min = none ∧ b.max = none ∨ ∃ n, value = .num n ∧
    (∀ m, b.min = some m → n.lt m = false) ∧ ∀ m, b.max = some m → m.lt n = false

def HoldsOfLength (b : Bounds) (value : Lua) : Prop :=
  b.minLen = none ∧ b.maxLen = none ∨ ∃ len, lenOf value = some len ∧
    (∀ m, b.minLen = some m → m ≤ len) ∧ ∀ m, b.maxLen = some m → len ≤ m

/-- Bounds are about what is there. -/
def Holds (b : Bounds) (value : Lua) : Prop :=
  value.isNil = true ∨ b.HoldsOfNumber value ∧ b.HoldsOfLength value

end Bounds

/-- The values a schema describes, names being looked up in the registry. -/
inductive Conforms (fits : String → String → Bool)
    (registry : Option (List (String × Schema))) : Schema → Lua → Prop
  | any (v : Lua) : Conforms fits registry .any v
  | prim (type : String) (v : Lua) (h : v.type = type) : Conforms fits registry (.prim type) v
  | integer (n : LuaNumber) (h : n.isWhole = true) : Conforms fits registry .integer (.num n)
  | tuple (items : List Schema) (xs : List Lua) (fields : List (String × Lua))
      (hthere : ∀ p ∈ items.zipIdx, (xs.getD p.2 .nil).isNil = false)
      (heach : ∀ p ∈ items.zipIdx, Conforms fits registry p.1 (xs.getD p.2 .nil))
      (hend : (xs.getD items.length .nil).isNil = true) :
      Conforms fits registry (.tuple items) (.table xs fields)
  | bounded (inner : Schema) (b : Bounds) (v : Lua) (h : Conforms fits registry inner v)
      (hb : b.Holds v) : Conforms fits registry (.bounded inner b) v
  | absent (inner : Schema) : Conforms fits registry (.optional inner) .nil
  | present (inner : Schema) (v : Lua) (h : Conforms fits registry inner v) :
      Conforms fits registry (.optional inner) v
  | described (inner : Schema) (doc : String) (v : Lua) (h : Conforms fits registry inner v) :
      Conforms fits registry (.described inner doc) v
  | arrayOf (elem : Schema) (xs : List Lua) (fields : List (String × Lua))
      (h : ∀ x ∈ counted xs, Conforms fits registry elem x) :
      Conforms fits registry (.arrayOf elem) (.table xs fields)
  | shape (fields : List (String × Schema)) (isOpen : Bool) (xs : List Lua)
      (entries : List (String × Lua))
      (heach : ∀ name schema, find fields name = some schema →
        Conforms fits registry schema (Lua.lookup entries name))
      (hclosed : isOpen = false → Closed fields entries) :
      Conforms fits registry (.shape fields isOpen) (.table xs entries)
  | discriminated (tag : String) (variants : List (String × List (String × Schema) × Bool))
      (xs : List Lua) (entries : List (String × Lua)) (name : String)
      (fields : List (String × Schema)) (isOpen : Bool)
      (htag : Lua.lookup entries tag = .str name) (hfind : find variants name = some (fields, isOpen))
      (h : Conforms fits registry (.shape fields isOpen) (.table xs entries)) :
      Conforms fits registry (.discriminated tag variants) (.table xs entries)
  | anyOf (variants : List Schema) (v : Lua) (schema : Schema) (hmem : schema ∈ variants)
      (h : Conforms fits registry schema v) : Conforms fits registry (.anyOf variants) v
  | mapOf (key val : Schema) (xs : List Lua) (fields : List (String × Lua))
      (hkey : ∀ e ∈ entriesOf xs fields, Conforms fits registry key e.1)
      (hval : ∀ e ∈ entriesOf xs fields, Conforms fits registry val e.2) :
      Conforms fits registry (.mapOf key val) (.table xs fields)
  | ref (name : String) (schemas : List (String × Schema)) (schema : Schema) (v : Lua)
      (hregistry : registry = some schemas) (hfind : find schemas name = some schema)
      (h : Conforms fits registry schema v) : Conforms fits registry (.ref name) v
  | pattern (pat s : String) (h : fits s pat = true) :
      Conforms fits registry (.pattern pat) (.str s)
  | oneOf (values : List Lua) (v : Lua) (h : values.any v.eq = true) :
      Conforms fits registry (.oneOf values) v

/-- `pairs` gives every entry, and once. -/
structure Enumerates (lib : Library) : Prop where
  names : ∀ path l, (lib.names path l).Perm l
  entries : ∀ path l, (lib.entries path l).Perm l

/-! ### What each handler finds -/

open Checked

section Handlers

variable {node : Lua → Schema → Path → Walk}

/-- The walk of the values inside is right. -/
def RightOf (lib : Library) (registry : Option (List (String × Schema)))
    (node : Lua → Schema → Path → Walk) : Prop :=
  ∀ value schema path,
    Right (node value schema path) (Conforms lib.fits registry schema value)

theorem right_fail {P : Prop} {path : Path} {detail : String} (h : ¬ P) :
    Right (fail path detail) P := .found h

theorem mem_sorted {names : List String} {name : String} : name ∈ sorted names ↔ name ∈ names :=
  List.mem_mergeSort

theorem mem_map_of_find {α : Type} {entries : List (String × α)} {name : String} {a : α}
    (h : find entries name = some a) : (name, a) ∈ entries := by
  obtain ⟨e, he, rfl⟩ := Option.map_eq_some_iff.mp h
  have hname := List.find?_some he
  simp only [decide_eq_true_eq] at hname
  rw [← hname]
  exact List.mem_of_find?_eq_some he

theorem eq_str_of_asStr {v : Lua} {s : String} (h : v.asStr = some s) : v = .str s := by
  cases v with
  | str t => exact congrArg Lua.str (Option.some.inj h)
  | _ => cases h

theorem right_bound {α : Type} {bound : Option α} {broken : α → Bool} {text : α → String}
    {path : Path} :
    Right (checkBound bound broken text path) (∀ b, bound = some b → broken b = false) := by
  cases bound with
  | none =>
      refine .pass ?_
      intro b hb
      cases hb
  | some b =>
      refine .ite (fun hbroken => right_fail ?_) fun hbroken => .pass ?_
      · intro h
        rw [h b rfl] at hbroken
        cases hbroken
      · intro b' hb'
        obtain rfl := Option.some.inj hb'
        simpa using hbroken

theorem right_checkNumber {value : Lua} {b : Bounds} {path : Path} :
    Right (checkNumber lib value b path) (b.HoldsOfNumber value) := by
  unfold checkNumber
  refine .ite ?_ ?_
  · intro hnone
    simp only [Bool.and_eq_true, Option.isNone_iff_eq_none] at hnone
    exact .pass (.inl hnone)
  · intro hsome
    have hbound : ¬ (b.min = none ∧ b.max = none) := by
      simpa [Option.isNone_iff_eq_none] using hsome
    cases value with
    | num n =>
        refine (right_bound.andThen fun _ => right_bound).congr ⟨?_, ?_⟩
        · intro h
          exact .inr ⟨n, rfl, h⟩
        · rintro (h | ⟨n', hn', h⟩)
          · exact absurd h hbound
          · cases hn'
            exact h
    | _ =>
        refine right_fail ?_
        rintro (h | ⟨n', hn', -⟩)
        · exact hbound h
        · cases hn'

theorem right_minLen {bound : Option ℕ} {len : ℕ} {path : Path} :
    Right (checkMinLen bound len path) (∀ m, bound = some m → m ≤ len) := by
  cases bound with
  | none =>
      refine .pass ?_
      intro m hm
      cases hm
  | some m =>
      refine .ite ?_ ?_
      · intro hbelow
        cases formatInt m with
        | error e => exact .error
        | ok text => exact right_fail fun h => absurd hbelow (Nat.not_lt.mpr (h m rfl))
      · intro hreached
        refine .pass ?_
        intro m' hm'
        obtain rfl := Option.some.inj hm'
        exact Nat.not_lt.mp hreached

theorem right_checkLength {value : Lua} {b : Bounds} {path : Path} :
    Right (checkLength value b path) (b.HoldsOfLength value) := by
  unfold checkLength
  refine .ite ?_ ?_
  · intro hnone
    simp only [Bool.and_eq_true, Option.isNone_iff_eq_none] at hnone
    exact .pass (.inl hnone)
  · intro hsome
    have hbound : ¬ (b.minLen = none ∧ b.maxLen = none) := by
      simpa [Option.isNone_iff_eq_none] using hsome
    cases hlen : lenOf value with
    | none =>
        refine right_fail ?_
        rintro (h | ⟨len, hsomelen, -⟩)
        · exact hbound h
        · rw [hlen] at hsomelen
          cases hsomelen
    | some len =>
        refine (right_minLen.andThen fun _ => right_bound).congr ⟨?_, ?_⟩
        · rintro ⟨hmin, hmax⟩
          refine .inr ⟨len, hlen, hmin, ?_⟩
          intro m hm
          simpa using hmax m hm
        · rintro (h | ⟨len', hlen', hmin, hmax⟩)
          · exact absurd h hbound
          · rw [hlen] at hlen'
            obtain rfl := Option.some.inj hlen'
            refine ⟨hmin, ?_⟩
            intro m hm
            simpa using hmax m hm

theorem right_checkBounded (hnode : RightOf lib registry node) {value : Lua} {inner : Schema}
    {b : Bounds} {path : Path} :
    Right (checkBounded lib node value inner b path)
      (Conforms lib.fits registry (.bounded inner b) value) := by
  have hholds : Right (if value.isNil then Checked.pass
      else (checkNumber lib value b path).andThen (checkLength value b path)) (b.Holds value) := by
    refine .ite (fun hnil => .pass (.inl hnil)) ?_
    intro hthere
    refine (right_checkNumber.andThen fun _ => right_checkLength).congr ⟨.inr, ?_⟩
    rintro (hnil | h)
    · exact absurd hnil hthere
    · exact h
  refine ((hnode value inner path).andThen fun _ => hholds).congr ⟨?_, ?_⟩
  · rintro ⟨h, hb⟩
    exact .bounded inner b value h hb
  · intro h
    cases h with
    | bounded _ _ _ h hb => exact ⟨h, hb⟩

theorem right_checkTuple (hnode : RightOf lib registry node) {items : List Schema} {xs : List Lua}
    {fields : List (String × Lua)} {path : Path} :
    Right (checkTuple node items xs path)
      (Conforms lib.fits registry (.tuple items) (.table xs fields)) := by
  have heach : ∀ p ∈ items.zipIdx, Right
      (if (xs.getD p.2 .nil).isNil then
        fail (.index (p.2 + 1) :: path)
          ("missing tuple element (expected " ++ toString items.length ++ " elements)")
      else node (xs.getD p.2 .nil) p.1 (.index (p.2 + 1) :: path))
      ((xs.getD p.2 .nil).isNil = false ∧
        Conforms lib.fits registry p.1 (xs.getD p.2 .nil)) := by
    intro p _
    refine .ite (fun hnil => right_fail ?_) ?_
    · rintro ⟨hthere, -⟩
      rw [hnil] at hthere
      cases hthere
    · intro hthere
      refine (hnode _ _ _).congr ⟨?_, And.right⟩
      intro h
      exact ⟨by simpa using hthere, h⟩
  have hend : Right (if (xs.getD items.length .nil).isNil then Checked.pass
      else fail path ("tuple has more than " ++ toString items.length ++ " elements"))
      ((xs.getD items.length .nil).isNil = true) :=
    .ite (fun h => .pass h) right_fail
  refine ((Right.all heach).andThen fun _ => hend).congr ⟨?_, ?_⟩
  · rintro ⟨h, hnil⟩
    exact .tuple items xs fields (fun p hp => (h p hp).1) (fun p hp => (h p hp).2) hnil
  · intro h
    cases h with
    | tuple _ _ _ hthere heach hnil => exact ⟨fun p hp => ⟨hthere p hp, heach p hp⟩, hnil⟩

theorem mem_present {entries : List (String × Lua)} {name : String} :
    name ∈ present entries ↔ (Lua.lookup entries name).isNil = false := by
  rw [present, List.mem_filter, List.mem_dedup, Bool.not_eq_true']
  refine ⟨And.right, fun h => ⟨?_, h⟩⟩
  by_contra hnot
  rw [Lua.lookup_of_not_mem hnot] at h
  cases h

theorem mem_extra (hlib : Enumerates lib) {fields : List (String × Schema)}
    {entries : List (String × Lua)} {path : Path} {name : String} :
    name ∈ extra lib fields entries path ↔
      (Lua.lookup entries name).isNil = false ∧ find fields name = none := by
  rw [extra, mem_sorted, List.mem_filter, (hlib.names path _).mem_iff, mem_present,
    Option.isNone_iff_eq_none]

theorem right_checkField (hnode : RightOf lib registry node) {fields : List (String × Schema)}
    {entries : List (String × Lua)} {path : Path} {name : String} :
    Right (checkField node fields entries path name)
      (∀ schema, find fields name = some schema →
        Conforms lib.fits registry schema (Lua.lookup entries name)) := by
  cases hfind : find fields name with
  | none =>
      rw [checkField, hfind]
      refine .pass ?_
      intro schema hschema
      cases hschema
  | some schema =>
      rw [checkField, hfind]
      refine (hnode _ _ _).congr ⟨?_, fun h => h schema rfl⟩
      intro h schema' hschema'
      obtain rfl := Option.some.inj hschema'
      exact h

theorem right_checkExtra (hlib : Enumerates lib) {fields : List (String × Schema)}
    {entries : List (String × Lua)} {path : Path} :
    Right (checkExtra lib fields entries path) (Closed fields entries) := by
  have hmem := fun name => @mem_extra lib hlib fields entries path name
  cases hextra : extra lib fields entries path with
  | nil =>
      rw [checkExtra, hextra]
      refine .pass ?_
      intro name hname
      by_contra hnone
      rw [Bool.not_eq_true, Option.isSome_eq_false_iff, Option.isNone_iff_eq_none] at hnone
      have hin := (hmem name).mpr ⟨hname, hnone⟩
      rw [hextra] at hin
      cases hin
  | cons name rest =>
      rw [checkExtra, hextra]
      refine right_fail ?_
      intro h
      have hin := (hmem name).mp (hextra ▸ List.mem_cons_self)
      have hsome := h name hin.1
      rw [hin.2] at hsome
      cases hsome

theorem right_checkShape (hlib : Enumerates lib) (hnode : RightOf lib registry node)
    {fields : List (String × Schema)} {isOpen : Bool} {value : Lua} {path : Path} :
    Right (checkShape lib node fields isOpen value path)
      (Conforms lib.fits registry (.shape fields isOpen) value) := by
  cases value with
  | table xs entries =>
      have hclosed : Right (if isOpen then pass else checkExtra lib fields entries path)
          (isOpen = false → Closed fields entries) := by
        refine .ite ?_ ?_
        · intro hopen
          refine .pass ?_
          intro hstrict
          rw [hopen] at hstrict
          cases hstrict
        · intro hstrict
          refine (right_checkExtra hlib).congr ⟨fun h _ => h, ?_⟩
          intro h
          exact h (by simpa using hstrict)
      -- the fields are walked in the order of their names, which decides nothing
      have heach : Right (Checked.all (checkField node fields entries path)
          (sorted (lib.names path (fields.map Prod.fst).dedup)))
          (∀ name ∈ sorted (lib.names path (fields.map Prod.fst).dedup), ∀ schema,
            find fields name = some schema →
              Conforms lib.fits registry schema (Lua.lookup entries name)) :=
        .all fun name _ => right_checkField hnode
      refine (heach.andThen fun _ => hclosed).congr ⟨?_, ?_⟩
      · rintro ⟨h, hc⟩
        refine .shape fields isOpen xs entries ?_ hc
        intro name schema hfind
        refine h name ?_ schema hfind
        rw [mem_sorted, (hlib.names path _).mem_iff, List.mem_dedup]
        exact List.mem_map_of_mem (mem_map_of_find hfind)
      · intro h
        cases h with
        | shape _ _ _ _ heach hc => exact ⟨fun name _ schema hfind => heach name schema hfind, hc⟩
  | _ =>
      refine right_fail ?_
      intro h
      cases h

theorem right_checkDiscriminated (hlib : Enumerates lib) (hnode : RightOf lib registry node)
    {tag : String} {variants : List (String × List (String × Schema) × Bool)} {value : Lua}
    {path : Path} :
    Right (checkDiscriminated lib node tag variants value path)
      (Conforms lib.fits registry (.discriminated tag variants) value) := by
  cases value with
  | table xs entries =>
      simp only [checkDiscriminated]
      refine .ite ?_ ?_
      · intro hnil
        refine right_fail ?_
        intro h
        cases h with
        | discriminated _ _ _ _ _ _ _ htag =>
            rw [htag] at hnil
            cases hnil
      · intro _
        cases hvariant : (Lua.lookup entries tag).asStr.bind (find variants) with
        | none =>
            refine right_fail ?_
            intro h
            cases h with
            | discriminated _ _ _ _ name fields isOpen htag hfind =>
                rw [htag, Lua.asStr, Option.bind_some, hfind] at hvariant
                cases hvariant
        | some variant =>
            -- the tag names one variant, and the value is checked against that one alone
            obtain ⟨name, hname, hfind⟩ := Option.bind_eq_some_iff.mp hvariant
            have htag := eq_str_of_asStr hname
            refine (right_checkShape hlib hnode).congr ⟨?_, ?_⟩
            · intro h
              exact .discriminated tag variants xs entries name _ _ htag hfind h
            · intro h
              cases h with
              | discriminated _ _ _ _ name' fields' isOpen' htag' hfind' h =>
                  rw [htag] at htag'
                  obtain rfl := Lua.str.inj htag'
                  rw [hfind] at hfind'
                  obtain rfl := Option.some.inj hfind'
                  exact h
  | _ =>
      refine right_fail ?_
      intro h
      cases h

theorem right_checkAnyOf (hnode : RightOf lib registry node) {value : Lua} {path : Path}
    {variants : List Schema} {reasons : List String} :
    Right (checkAnyOf node value path variants reasons)
      (∃ schema ∈ variants, Conforms lib.fits registry schema value) := by
  induction variants generalizing reasons with
  | nil =>
      refine right_fail ?_
      rintro ⟨schema, hmem, -⟩
      cases hmem
  | cons variant rest ih =>
      refine ((hnode value variant path).orElse fun r _ => ih).congr ?_
      rw [List.exists_mem_cons_iff]

theorem right_checkMap (hlib : Enumerates lib) (hnode : RightOf lib registry node)
    {key val : Schema} {value : Lua} {path : Path} :
    Right (checkMap lib node key val value path)
      (Conforms lib.fits registry (.mapOf key val) value) := by
  cases value with
  | table xs fields =>
      have heach := Right.all (l := lib.entries path (entriesOf xs fields)) fun e _ =>
        (hnode e.1 key (.key (lib.tostring e.1) :: path)).andThen fun _ =>
          hnode e.2 val (.value (lib.tostring e.1) :: path)
      refine heach.congr ⟨?_, ?_⟩
      · intro h
        have hentries := fun e he => h e ((hlib.entries path _).mem_iff.mpr he)
        exact .mapOf key val xs fields (fun e he => (hentries e he).1)
          fun e he => (hentries e he).2
      · intro h e he
        have hmem := (hlib.entries path _).mem_iff.mp he
        cases h with
        | mapOf _ _ _ _ hkey hval => exact ⟨hkey e hmem, hval e hmem⟩
  | _ =>
      refine right_fail ?_
      intro h
      cases h

theorem right_checkRef (hnode : RightOf lib registry node) {name : String} {value : Lua}
    {path : Path} :
    Right (checkRef registry node name value path)
      (Conforms lib.fits registry (.ref name) value) := by
  cases hregistry : registry with
  | none =>
      rw [checkRef]
      exact .error
  | some schemas =>
      subst hregistry
      simp only [checkRef]
      cases hfind : find schemas name with
      | none =>
          refine right_fail ?_
          intro h
          cases h with
          | ref _ schemas' schema _ hregistry hschema =>
              obtain rfl := Option.some.inj hregistry
              rw [hfind] at hschema
              cases hschema
      | some schema =>
          refine (hnode value schema path).congr ⟨.ref name schemas schema value rfl hfind, ?_⟩
          intro h
          cases h with
          | ref _ schemas' schema' _ hregistry hschema h =>
              obtain rfl := Option.some.inj hregistry
              rw [hfind] at hschema
              obtain rfl := Option.some.inj hschema
              exact h

theorem right_arrayOf (hnode : RightOf lib registry node) {elem : Schema} {xs : List Lua}
    {fields : List (String × Lua)} {path : Path} :
    Right (Checked.all (fun x : Lua × ℕ => node x.1 elem (.index (x.2 + 1) :: path))
        (counted xs).zipIdx)
      (Conforms lib.fits registry (.arrayOf elem) (.table xs fields)) := by
  have heach := Right.all (l := (counted xs).zipIdx) fun x _ =>
    hnode x.1 elem (.index (x.2 + 1) :: path)
  refine heach.congr ⟨?_, ?_⟩
  · intro h
    refine .arrayOf elem xs fields ?_
    intro x hx
    obtain ⟨i, hi⟩ := List.mem_iff_getElem?.mp hx
    exact h (x, i) (List.mem_zipIdx_iff_getElem?.mpr hi)
  · intro h e he
    cases h with
    | arrayOf _ _ _ h => exact h e.1 (List.fst_mem_of_mem_zipIdx he)

theorem right_checkPattern {pat : String} {value : Lua} {path : Path} :
    Right (checkPattern lib pat value path) (Conforms lib.fits registry (.pattern pat) value) := by
  cases value with
  | str s =>
      simp only [checkPattern]
      cases hmatch : lib.matchesPattern s pat with
      | error e => exact .error
      | ok found =>
          have hfits : lib.fits s pat = found := by simp only [Library.fits, hmatch]
          refine .ite (fun h => .pass (.pattern pat s (hfits.trans h))) fun hne => right_fail ?_
          intro h
          cases h with
          | pattern _ _ h => exact hne (hfits.symm.trans h)
  | _ =>
      refine right_fail ?_
      intro h
      cases h

/-- Each handler is right where the walk inside is. -/
theorem right_handle (hlib : Enumerates lib) (hnode : RightOf lib registry node) :
    RightOf lib registry (handle lib registry node) := by
  intro value schema path
  cases schema with
  | any => exact .pass (.any value)
  | prim type =>
      refine .ite (fun h => .pass (.prim type value h)) fun hne => right_fail ?_
      intro h
      cases h with
      | prim _ _ htype => exact hne htype
  | integer =>
      cases value with
      | num n =>
          refine .ite (fun h => .pass (.integer n h)) fun hne => right_fail ?_
          intro h
          cases h with
          | integer _ hwhole => exact hne hwhole
      | _ =>
          refine right_fail ?_
          intro h
          cases h
  | tuple items =>
      cases value with
      | table xs fields => exact right_checkTuple hnode
      | _ =>
          refine right_fail ?_
          intro h
          cases h
  | bounded inner bounds => exact right_checkBounded hnode
  | optional inner =>
      cases value with
      | nil => exact .pass (.absent inner)
      | _ =>
          refine (hnode _ inner path).congr ⟨.present inner _, ?_⟩
          intro h
          cases h with
          | present _ _ h => exact h
  | described inner doc =>
      refine (hnode value inner path).congr ⟨.described inner doc value, ?_⟩
      intro h
      cases h with
      | described _ _ _ h => exact h
  | arrayOf elem =>
      cases value with
      | table xs fields => exact right_arrayOf hnode
      | _ =>
          refine right_fail ?_
          intro h
          cases h
  | shape fields isOpen => exact right_checkShape hlib hnode
  | discriminated tag variants => exact right_checkDiscriminated hlib hnode
  | anyOf variants =>
      refine (right_checkAnyOf hnode).congr ⟨?_, ?_⟩
      · rintro ⟨schema, hmem, h⟩
        exact .anyOf variants value schema hmem h
      · intro h
        cases h with
        | anyOf _ _ schema hmem h => exact ⟨schema, hmem, h⟩
  | mapOf key val => exact right_checkMap hlib hnode
  | ref name => exact right_checkRef hnode
  | pattern pat => exact right_checkPattern
  | oneOf values =>
      refine .ite (fun h => .pass (.oneOf values value h)) fun hne => right_fail ?_
      intro h
      cases h with
      | oneOf _ _ hany => exact hne hany

end Handlers

/-- The walk is right, with however many levels left. -/
theorem right_checkNode (hlib : Enumerates lib) (levels : ℕ) :
    RightOf lib registry (checkNode lib registry levels) := by
  induction levels with
  | zero =>
      intro value schema path
      exact .error
  | succ levels ih => exact right_handle hlib ih

/-! ### Where the walk goes -/

/-- What the walk goes on to, from a schema and its value. -/
inductive Inside (registry : Option (List (String × Schema))) :
    Schema × Lua → Schema × Lua → Prop
  | item (items : List Schema) (xs : List Lua) (fields : List (String × Lua)) (p : Schema × ℕ)
      (h : p ∈ items.zipIdx) :
      Inside registry (.tuple items, .table xs fields) (p.1, xs.getD p.2 .nil)
  | bounded (inner : Schema) (b : Bounds) (v : Lua) :
      Inside registry (.bounded inner b, v) (inner, v)
  | present (inner : Schema) (v : Lua) (h : v.isNil = false) :
      Inside registry (.optional inner, v) (inner, v)
  | described (inner : Schema) (doc : String) (v : Lua) :
      Inside registry (.described inner doc, v) (inner, v)
  | elem (elem : Schema) (xs : List Lua) (fields : List (String × Lua)) (x : Lua)
      (h : x ∈ counted xs) : Inside registry (.arrayOf elem, .table xs fields) (elem, x)
  | field (fields : List (String × Schema)) (isOpen : Bool) (xs : List Lua)
      (entries : List (String × Lua)) (name : String) (schema : Schema)
      (h : find fields name = some schema) :
      Inside registry (.shape fields isOpen, .table xs entries) (schema, Lua.lookup entries name)
  | variant (tag : String) (variants : List (String × List (String × Schema) × Bool))
      (xs : List Lua) (entries : List (String × Lua)) (fields : List (String × Schema))
      (isOpen : Bool) (q : Schema × Lua)
      (hfind : (Lua.lookup entries tag).asStr.bind (find variants) = some (fields, isOpen))
      (h : Inside registry (.shape fields isOpen, .table xs entries) q) :
      Inside registry (.discriminated tag variants, .table xs entries) q
  | either (variants : List Schema) (v : Lua) (schema : Schema) (h : schema ∈ variants) :
      Inside registry (.anyOf variants, v) (schema, v)
  | key (key val : Schema) (xs : List Lua) (fields : List (String × Lua)) (e : Lua × Lua)
      (h : e ∈ entriesOf xs fields) : Inside registry (.mapOf key val, .table xs fields) (key, e.1)
  | val (key val : Schema) (xs : List Lua) (fields : List (String × Lua)) (e : Lua × Lua)
      (h : e ∈ entriesOf xs fields) : Inside registry (.mapOf key val, .table xs fields) (val, e.2)
  | ref (name : String) (schemas : List (String × Schema)) (schema : Schema) (v : Lua)
      (hregistry : registry = some schemas) (hfind : find schemas name = some schema) :
      Inside registry (.ref name, v) (schema, v)

/-- A handler raises here, of its own: there is no registry, the pattern is malformed
for this string, or this length has to be written down and cannot be. -/
inductive Raises (matchesPattern : String → String → Except String Bool)
    (registry : Option (List (String × Schema))) : Schema × Lua → Prop
  | ref (name : String) (v : Lua) (h : registry = none) :
      Raises matchesPattern registry (.ref name, v)
  | pattern (pat s e : String) (h : matchesPattern s pat = .error e) :
      Raises matchesPattern registry (.pattern pat, .str s)
  | bounded (inner : Schema) (b : Bounds) (v : Lua) (len m : ℕ) (hlen : lenOf v = some len)
      (hbound : b.minLen = some m) (hbelow : len < m) (hm : 2 ^ 63 ≤ m) :
      Raises matchesPattern registry (.bounded inner b, v)

/-- Whichever way the walk goes on, it is over after so many levels, and nothing that it
comes to raises. -/
def Within (matchesPattern : String → String → Except String Bool)
    (registry : Option (List (String × Schema))) : ℕ → Schema × Lua → Prop
  | 0, _ => False
  | levels + 1, p =>
      ¬ Raises matchesPattern registry p ∧
        ∀ q, Inside registry p q → Within matchesPattern registry levels q

end AgentBlock.Lshape
