/-
AgentBlock/Lshape/Decides.lean

The walk decides: `Conforms` says what it finds out, and the theorems here that it
does find it out.

`check_decides` — where the walk is no deeper than it may be, it finds no violation
exactly in the values that the schema describes.

`violation_blames` — what it finds is about a value that it came to, and that is not
what its schema there describes.

`check_in_any_order` — whatever order Lua gives the entries of a table in, the walk
decides the same, and it finds the same violation when it comes to no map.
-/
import AgentBlock.Lshape.Conforms
import Mathlib.Logic.Relation

namespace AgentBlock.Lshape

open Checked

variable {lib lib' : Library} {registry : Option (List (String × Schema))}

/-! ### The order of a table -/

/-- Two libraries differ in nothing but the order in which they enumerate. -/
structure Likewise (lib lib' : Library) : Prop where
  tostring : lib'.tostring = lib.tostring
  quoted : lib'.quoted = lib.quoted
  matchesPattern : lib'.matchesPattern = lib.matchesPattern

/-- Up to the border the items are those of the table. -/
theorem getElem?_of_counted {items : List Lua} {i : ℕ} {v : Lua}
    (h : (counted items)[i]? = some v) : items[i]? = some v := by
  obtain ⟨rest, hrest⟩ : counted items <+: items := List.rdropWhile_prefix _ items
  obtain ⟨hi, -⟩ := List.getElem?_eq_some_iff.mp h
  rw [← hrest, List.getElem?_append_left hi, h]

theorem Likewise.fits (h : Likewise lib lib') : lib'.fits = lib.fits := by
  funext s pat
  simp only [Library.fits, h.matchesPattern]

theorem Likewise.refl : Likewise lib lib := ⟨rfl, rfl, rfl⟩

theorem sorted_eq_of_perm {names names' : List String} (h : names.Perm names') :
    sorted names = sorted names' := by
  have htrans : ∀ a b c : String, decide (a ≤ b) = true → decide (b ≤ c) = true →
      decide (a ≤ c) = true := by
    intro a b c hab hbc
    simp only [decide_eq_true_eq] at hab hbc ⊢
    exact String.le_trans hab hbc
  have htotal : ∀ a b : String, (decide (a ≤ b) || decide (b ≤ a)) = true := by
    intro a b
    simpa using String.le_total a b
  have hperm : (sorted names).Perm (sorted names') :=
    (List.mergeSort_perm names _).trans (h.trans (List.mergeSort_perm names' _).symm)
  refine hperm.eq_of_pairwise ?_ (List.pairwise_mergeSort htrans htotal names)
    (List.pairwise_mergeSort htrans htotal names')
  intro a b _ _ hab hba
  simp only [decide_eq_true_eq] at hab hba
  exact String.le_antisymm hab hba

theorem sorted_names_eq (hlib : Enumerates lib) (hlib' : Enumerates lib') (path : Path)
    (names : List String) : sorted (lib'.names path names) = sorted (lib.names path names) :=
  sorted_eq_of_perm ((hlib'.names path names).trans (hlib.names path names).symm)

theorem extra_eq (hlib : Enumerates lib) (hlib' : Enumerates lib')
    (fields : List (String × Schema)) (entries : List (String × Lua)) (path : Path) :
    extra lib' fields entries path = extra lib fields entries path :=
  sorted_eq_of_perm (((hlib'.names path _).trans (hlib.names path _).symm).filter _)

/-- A library that gives what is in a table as it is stored. -/
def asStored : Library where
  tostring
    | .num (.int n) => toString n
    | .str s => s
    | v => v.type
  quoted s := "\"" ++ s ++ "\""
  matchesPattern s pat := .ok (s = pat)
  names _ l := l
  entries _ l := l

/-- The same, from the other end. -/
def fromTheEnd : Library :=
  { asStored with names := fun _ l => l.reverse, entries := fun _ l => l.reverse }

theorem asStored_enumerates : Enumerates asStored :=
  ⟨fun _ _ => .refl _, fun _ _ => .refl _⟩

theorem fromTheEnd_enumerates : Enumerates fromTheEnd :=
  ⟨fun _ l => l.reverse_perm, fun _ l => l.reverse_perm⟩

/-! ### What a handler asks -/

/-- The value to which a path leads, in a whole one. -/
inductive Leads (lib : Library) (whole : Lua) : Path → Lua → Prop
  | here : Leads lib whole [] whole
  | field {path : Path} {xs : List Lua} {entries : List (String × Lua)}
      (h : Leads lib whole path (.table xs entries)) (name : String) :
      Leads lib whole (.field name :: path) (Lua.lookup entries name)
  | index {path : Path} {xs : List Lua} {fields : List (String × Lua)}
      (h : Leads lib whole path (.table xs fields)) (i : ℕ) :
      Leads lib whole (.index (i + 1) :: path) (xs.getD i .nil)
  | key {path : Path} {xs : List Lua} {fields : List (String × Lua)}
      (h : Leads lib whole path (.table xs fields)) (e : Lua × Lua)
      (he : e ∈ entriesOf xs fields) : Leads lib whole (.key (lib.tostring e.1) :: path) e.1
  | value {path : Path} {xs : List Lua} {fields : List (String × Lua)}
      (h : Leads lib whole path (.table xs fields)) (e : Lua × Lua)
      (he : e ∈ entriesOf xs fields) : Leads lib whole (.value (lib.tostring e.1) :: path) e.2

/-- The one path leads on from where the other does. -/
def Onward (lib : Library) (path : Path) (value : Lua) (path' : Path) (value' : Lua) : Prop :=
  ∀ whole, Leads lib whole path value → Leads lib whole path' value'

/-- A place, or a step from it. -/
def From (path path' : Path) : Prop := path' = path ∨ ∃ s, path' = s :: path

theorem From.here {path : Path} : From path path := .inl rfl

theorem From.step {path : Path} {s : Segment} : From path (s :: path) := .inr ⟨s, rfl⟩

section Handlers

variable {node node' : Lua → Schema → Path → Walk} {schema : Schema} {value : Lua} {path : Path}

/-- Two walks from one place, made alike: what they ask is about what is inside there,
and a violation of their own is at the place or at a step from it. -/
abbrev AlikeAt (lib : Library) (registry : Option (List (String × Schema)))
    (node node' : Lua → Schema → Path → Walk) (schema : Schema) (value : Lua) (path : Path) :
    Walk → Walk → Prop :=
  Alike
    (fun q : (Schema × Lua) × Path =>
      Inside registry (schema, value) q.1 ∧ Onward lib path value q.2 q.1.2)
    (fun r => From path r.path) (Raises lib.matchesPattern registry (schema, value))
    (fun q => node q.1.2 q.1.1 q.2) (fun q => node' q.1.2 q.1.1 q.2)

theorem alike_fail {path' : Path} {detail : String} (h : From path path') :
    AlikeAt lib registry node node' schema value path (fail path' detail) (fail path' detail) :=
  .found _ h

theorem alike_ask {schema' : Schema} {value' : Lua} {path' : Path}
    (h : Inside registry (schema, value) (schema', value')) (hpath : Onward lib path value path' value') :
    AlikeAt lib registry node node' schema value path (node value' schema' path')
      (node' value' schema' path') :=
  .ask ((schema', value'), path') ⟨h, hpath⟩

theorem alike_bound {α : Type} {bound : Option α} {broken : α → Bool} {text : α → String} :
    AlikeAt lib registry node node' schema value path (checkBound bound broken text path)
      (checkBound bound broken text path) := by
  cases bound with
  | none => exact .pass
  | some b => exact .ite (alike_fail .here) .pass

theorem alike_checkNumber {b : Bounds} (htostring : lib'.tostring = lib.tostring) :
    AlikeAt lib registry node node' schema value path (checkNumber lib value b path)
      (checkNumber lib' value b path) := by
  unfold checkNumber
  rw [htostring]
  refine .ite .pass ?_
  cases value with
  | num n => exact .andThen alike_bound alike_bound
  | _ => exact alike_fail .here

theorem alike_minLen {inner : Schema} {b : Bounds} {len : ℕ} (hlen : lenOf value = some len) :
    AlikeAt lib registry node node' (.bounded inner b) value path (checkMinLen b.minLen len path)
      (checkMinLen b.minLen len path) := by
  cases hbound : b.minLen with
  | none => exact .pass
  | some m =>
      unfold checkMinLen
      by_cases hbelow : len < m
      · simp only [if_pos hbelow]
        by_cases hm : m < 2 ^ 63
        · rw [formatInt, if_pos hm]
          exact alike_fail .here
        · rw [formatInt, if_neg hm]
          exact .error _ (.bounded inner b value len m hlen hbound hbelow (Nat.not_lt.mp hm))
      · simp only [if_neg hbelow]
        exact .pass

theorem alike_checkLength {inner : Schema} {b : Bounds} :
    AlikeAt lib registry node node' (.bounded inner b) value path (checkLength value b path)
      (checkLength value b path) := by
  unfold checkLength
  refine .ite .pass ?_
  cases hlen : lenOf value with
  | some len => exact .andThen (alike_minLen hlen) alike_bound
  | none => exact alike_fail .here

theorem alike_checkTuple {items : List Schema} {xs : List Lua} {fields : List (String × Lua)} :
    AlikeAt lib registry node node' (.tuple items) (.table xs fields) path
      (checkTuple node items xs path) (checkTuple node' items xs path) := by
  refine .andThen (.all ?_) (.ite .pass (alike_fail .here))
  intro p hp
  exact .ite (alike_fail .step) (alike_ask (.item items xs fields p hp) fun _ h => .index h p.2)

/-- The walk of a shape, from where what is inside the shape is inside. -/
theorem alike_checkShape (hlib : Enumerates lib) (hlib' : Enumerates lib')
    {fields : List (String × Schema)} {isOpen : Bool}
    (hinside : ∀ q, Inside registry (.shape fields isOpen, value) q →
      Inside registry (schema, value) q) :
    AlikeAt lib registry node node' schema value path (checkShape lib node fields isOpen value path)
      (checkShape lib' node' fields isOpen value path) := by
  cases value with
  | table xs entries =>
      simp only [checkShape, sorted_names_eq hlib hlib', checkExtra, extra_eq hlib hlib']
      refine .andThen (.all ?_) (.ite .pass ?_)
      · intro name _
        unfold checkField
        cases hfind : find fields name with
        | none => exact .pass
        | some sub =>
            exact alike_ask (hinside _ (.field fields isOpen xs entries name sub hfind))
              fun _ h => .field h name
      · cases extra lib fields entries path with
        | nil => exact .pass
        | cons name rest => exact alike_fail .step
  | _ => exact alike_fail .here

theorem alike_checkDiscriminated (hlib : Enumerates lib) (hlib' : Enumerates lib')
    (hlike : Likewise lib lib') {tag : String}
    {variants : List (String × List (String × Schema) × Bool)} :
    AlikeAt lib registry node node' (.discriminated tag variants) value path
      (checkDiscriminated lib node tag variants value path)
      (checkDiscriminated lib' node' tag variants value path) := by
  cases value with
  | table xs entries =>
      simp only [checkDiscriminated, sorted_names_eq hlib hlib', hlike.quoted, hlike.tostring]
      refine .ite (alike_fail .here) ?_
      cases hfind : (Lua.lookup entries tag).asStr.bind (find variants) with
      | none => exact alike_fail .here
      | some variant =>
          refine alike_checkShape hlib hlib' ?_
          intro q hq
          exact .variant tag variants xs entries _ _ q hfind hq
  | _ => exact alike_fail .here

theorem alike_checkAnyOf {variants rest : List Schema} {reasons : List String}
    (h : ∀ variant ∈ rest, variant ∈ variants) :
    AlikeAt lib registry node node' (.anyOf variants) value path
      (checkAnyOf node value path rest reasons) (checkAnyOf node' value path rest reasons) := by
  induction rest generalizing reasons with
  | nil => exact alike_fail .here
  | cons variant rest ih =>
      have hvariant := h variant List.mem_cons_self
      refine .orElse (alike_ask (.either variants value variant hvariant) fun _ h => h) ?_
      intro r
      exact ih fun v hv => h v (List.mem_cons_of_mem _ hv)

theorem alike_checkMap (hlib : Enumerates lib) (hlike : Likewise lib lib')
    (hentries : lib'.entries = lib.entries) {key val : Schema} :
    AlikeAt lib registry node node' (.mapOf key val) value path
      (checkMap lib node key val value path) (checkMap lib' node' key val value path) := by
  cases value with
  | table xs fields =>
      simp only [checkMap, hlike.tostring, hentries]
      refine .all ?_
      intro e he
      have hmem := (hlib.entries path _).mem_iff.mp he
      exact .andThen (alike_ask (.key key val xs fields e hmem) fun _ h => .key h e hmem)
        (alike_ask (.val key val xs fields e hmem) fun _ h => .value h e hmem)
  | _ => exact alike_fail .here

theorem alike_checkRef {name : String} :
    AlikeAt lib registry node node' (.ref name) value path
      (checkRef registry node name value path) (checkRef registry node' name value path) := by
  cases hregistry : registry with
  | none => exact .error _ (.ref name value rfl)
  | some schemas =>
      simp only [checkRef]
      cases hfind : find schemas name with
      | none => exact alike_fail .here
      | some sub => exact alike_ask (.ref name schemas sub value rfl hfind) fun _ h => h

theorem alike_checkPattern (hlike : Likewise lib lib') {pat : String} :
    AlikeAt lib registry node node' (.pattern pat) value path (checkPattern lib pat value path)
      (checkPattern lib' pat value path) := by
  cases value with
  | str s =>
      simp only [checkPattern, hlike.quoted, hlike.matchesPattern]
      cases hmatch : lib.matchesPattern s pat with
      | error e => exact .error e (.pattern pat s e hmatch)
      | ok found => exact .ite .pass (alike_fail .here)
  | _ => exact alike_fail .here

/-- What each handler asks, and what it says itself. -/
theorem alike_handle (hlib : Enumerates lib) (hlib' : Enumerates lib') (hlike : Likewise lib lib')
    (hentries : (∃ key val, schema = .mapOf key val) → lib'.entries = lib.entries) :
    AlikeAt lib registry node node' schema value path (handle lib registry node value schema path)
      (handle lib' registry node' value schema path) := by
  cases schema with
  | any => exact .pass
  | prim type => exact .ite .pass (alike_fail .here)
  | integer =>
      simp only [handle, hlike.tostring]
      cases value with
      | num n => exact .ite .pass (alike_fail .here)
      | _ => exact alike_fail .here
  | tuple items =>
      cases value with
      | table xs fields => exact alike_checkTuple
      | _ => exact alike_fail .here
  | bounded inner bounds =>
      exact .andThen (alike_ask (.bounded inner bounds value) fun _ h => h)
        (.ite .pass (.andThen (alike_checkNumber hlike.tostring) alike_checkLength))
  | optional inner =>
      cases hnil : value.isNil with
      | true =>
          simp only [handle, hnil]
          exact .pass
      | false =>
          simp only [handle, hnil]
          exact alike_ask (.present inner value hnil) fun _ h => h
  | described inner doc => exact alike_ask (.described inner doc value) fun _ h => h
  | arrayOf elem =>
      cases value with
      | table xs fields =>
          refine .all ?_
          intro x hx
          refine alike_ask (.elem elem xs fields x.1 (List.fst_mem_of_mem_zipIdx hx)) ?_
          intro whole h
          have hx' : xs.getD x.2 .nil = x.1 := by
            rw [List.getD_eq_getElem?_getD, getElem?_of_counted (List.mem_zipIdx_iff_getElem?.mp hx),
              Option.getD_some]
          exact hx' ▸ Leads.index h x.2
      | _ => exact alike_fail .here
  | shape fields isOpen => exact alike_checkShape hlib hlib' fun q hq => hq
  | discriminated tag variants => exact alike_checkDiscriminated hlib hlib' hlike
  | anyOf variants => exact alike_checkAnyOf fun v hv => hv
  | mapOf key val => exact alike_checkMap hlib hlike (hentries ⟨key, val, rfl⟩)
  | ref name => exact alike_checkRef
  | pattern pat => exact alike_checkPattern hlike
  | oneOf values =>
      simp only [handle, hlike.quoted, hlike.tostring]
      exact .ite .pass (alike_fail .here)

end Handlers

/-! ### The walk of a value -/

theorem checkNode_answers (hlib : Enumerates lib) {levels : ℕ} {schema : Schema} {value : Lua}
    {path : Path} (h : Within lib.matchesPattern registry levels (schema, value)) :
    Answers (checkNode lib registry levels value schema path) := by
  induction levels generalizing schema value path with
  | zero => exact absurd h id
  | succ levels ih =>
      obtain ⟨hraises, hinside⟩ := h
      have hmade := @alike_handle lib lib registry (checkNode lib registry levels)
        (checkNode lib registry levels) schema value path hlib hlib .refl fun _ => rfl
      refine hmade.answers hraises ?_
      intro q hq
      exact ih (hinside q.1 hq.1)

/-- **A check decides**: it answers, and finds nothing exactly of the values the
schema describes.  What is asked (`Within`) is of each schema and value the walk may
come to: that it is no deeper than a walk may be, that a `ref` has a registry, and
that neither the match of a pattern nor the text of a length raises. -/
theorem check_decides (hlib : Enumerates lib) {schema : Schema} {value : Lua}
    (h : Within lib.matchesPattern registry MAX_CHECK_DEPTH (schema, value)) :
    Answers (check lib registry value schema) ∧
      (check lib registry value schema = .ok none ↔
        Conforms lib.fits registry schema value) := by
  have hanswers : Answers (check lib registry value schema) := checkNode_answers hlib h
  exact ⟨hanswers, (right_checkNode hlib _ value schema []).iff hanswers⟩

/-- A list of strings of one pattern, under a name. -/
theorem check_decides_named :
    check asStored (some [("names", .arrayOf (.pattern "ada"))]) (.table [.str "ada"] [])
      (.ref "names") = .ok none := by
  refine (check_decides asStored_enumerates ⟨?_, ?_⟩).2.mpr ?_
  · rintro (⟨_, _, h⟩ | _)
    cases h
  · rintro q (_ | _ | _ | _ | _ | _ | _ | _ | _ | _ | ⟨_, _, schema, _, hregistry, hfind⟩)
    obtain rfl := Option.some.inj hregistry
    obtain rfl : Schema.arrayOf (.pattern "ada") = schema := Option.some.inj hfind
    refine ⟨?_, ?_⟩
    · rintro (_ | _ | _)
    rintro q (_ | _ | _ | _ | ⟨_, _, _, x, hx⟩)
    obtain rfl : x = .str "ada" := List.mem_singleton.mp hx
    refine ⟨?_, ?_⟩
    · rintro (_ | ⟨_, _, e, h⟩)
      cases h
    rintro q (_ | _)
  · refine .ref "names" _ _ _ rfl rfl (.arrayOf (.pattern "ada") _ _ ?_)
    intro x hx
    obtain rfl : x = .str "ada" := List.mem_singleton.mp hx
    exact .pattern "ada" "ada" (by decide)

/-- A violation is about something inside, at the end of its own path or a step before. -/
theorem checkNode_blames (hlib : Enumerates lib) {levels : ℕ} {schema : Schema} {value : Lua}
    {path : Path} {r : Violation}
    (h : checkNode lib registry levels value schema path = .ok (some r)) :
    ∃ schema' value' path', Relation.ReflTransGen (Inside registry) (schema, value)
        (schema', value') ∧ Onward lib path value path' value' ∧
      ¬ Conforms lib.fits registry schema' value' ∧ From path' r.path := by
  induction levels generalizing schema value path with
  | zero => cases h
  | succ levels ih =>
      have hmade := @alike_handle lib lib registry (checkNode lib registry levels)
        (checkNode lib registry levels) schema value path hlib hlib .refl fun _ => rfl
      rcases hmade.of_found h with hown | ⟨⟨⟨schema₁, value₁⟩, path₁⟩, ⟨hin, honward⟩, hasked⟩
      · have hfails := (right_checkNode hlib (levels + 1) value schema path).fails r h
        exact ⟨schema, value, path, .refl, fun _ h => h, hfails, hown⟩
      · obtain ⟨schema', value', path', hinside, hpath, hrest⟩ := ih hasked
        exact ⟨schema', value', path', .head hin hinside, fun whole h => hpath whole
          (honward whole h), hrest⟩

/-- **A violation is blamed on what is wrong**: on something inside that is not what
the schema there describes, and its path leads there, or a step further, as a field
that should not be there is named by its own path. -/
theorem violation_blames (hlib : Enumerates lib) {schema : Schema} {value : Lua} {r : Violation}
    (h : check lib registry value schema = .ok (some r)) :
    ∃ schema' value' path', Relation.ReflTransGen (Inside registry) (schema, value)
        (schema', value') ∧ Leads lib value path' value' ∧
      ¬ Conforms lib.fits registry schema' value' ∧
      (r.path = path' ∨ ∃ s, r.path = s :: path') := by
  obtain ⟨schema', value', path', hinside, honward, hfails, hfrom⟩ := checkNode_blames hlib h
  exact ⟨schema', value', path', hinside, honward value .here, hfails, hfrom⟩

/-- The second of two integers is a string. -/
theorem violation_blames_second :
    ∃ schema' value' path', Relation.ReflTransGen (Inside none)
        (.arrayOf .integer, .table [.num (.int 1), .str "two"] []) (schema', value') ∧
      Leads asStored (.table [.num (.int 1), .str "two"] []) path' value' ∧
      ¬ Conforms asStored.fits none schema' value' ∧
      ([Segment.index 2] = path' ∨ ∃ s, [Segment.index 2] = s :: path') :=
  @violation_blames asStored none asStored_enumerates _ _
    ⟨[.index 2], "expected integer, got string"⟩ rfl

theorem checkNode_in_any_order (hlib : Enumerates lib) (hlib' : Enumerates lib')
    (hlike : Likewise lib lib') {levels : ℕ} {schema : Schema} {value : Lua} {path : Path}
    (hmaps : ∀ key val v, ¬ Relation.ReflTransGen (Inside registry) (schema, value)
      (.mapOf key val, v)) :
    checkNode lib registry levels value schema path =
      checkNode lib' registry levels value schema path := by
  induction levels generalizing schema value path with
  | zero => rfl
  | succ levels ih =>
      have hmade := @alike_handle lib lib' registry (checkNode lib registry levels)
        (checkNode lib' registry levels) schema value path hlib hlib' hlike
      refine (hmade ?_).eq ?_
      · rintro ⟨key, val, rfl⟩
        exact absurd .refl (hmaps key val value)
      · intro q hq
        exact ih fun key val v hreach => hmaps key val v (.head hq.1 hreach)

/-- **The order of tables decides nothing**, and where there are no maps it does not
show: the walk sorts the fields of a shape and the tags of a union before it reads
them, and the entries of a map alone are walked as they are enumerated. -/
theorem check_in_any_order (hlib : Enumerates lib) (hlib' : Enumerates lib')
    (hlike : Likewise lib lib') {schema : Schema} {value : Lua} :
    (Within lib.matchesPattern registry MAX_CHECK_DEPTH (schema, value) →
        (check lib registry value schema = .ok none ↔
          check lib' registry value schema = .ok none)) ∧
      ((∀ key val v, ¬ Relation.ReflTransGen (Inside registry) (schema, value)
          (.mapOf key val, v)) →
        check lib registry value schema = check lib' registry value schema) := by
  refine ⟨?_, fun hmaps => checkNode_in_any_order hlib hlib' hlike hmaps⟩
  intro hwithin
  have hdecides := (check_decides hlib' (hlike.matchesPattern ▸ hwithin)).2
  rw [hlike.fits] at hdecides
  exact (check_decides hlib hwithin).2.trans hdecides.symm

/-- Of two fields that should not be there it is the same one. -/
theorem check_in_any_order_of_fields :
    check asStored none (.table [] [("b", .null), ("a", .null)]) (.shape [] false) =
      check fromTheEnd none (.table [] [("b", .null), ("a", .null)]) (.shape [] false) := by
  refine (check_in_any_order asStored_enumerates fromTheEnd_enumerates ⟨rfl, rfl, rfl⟩).2 ?_
  intro key val v hreach
  rcases hreach.cases_head with heq | ⟨q, hin, -⟩
  · cases heq
  · rcases hin with _ | _ | _ | _ | _ | ⟨_, _, _, _, name, schema, hfind⟩
    cases hfind

end AgentBlock.Lshape
