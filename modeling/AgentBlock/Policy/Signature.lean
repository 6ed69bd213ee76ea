/-
AgentBlock/Policy/Signature.lean

What a beat called, as the one string it is compared by.

An input is JSON, so a null is the sentinel and the fields of a map may be met in
any order (`Reads`).  Its rendering is the text of a tree of keyed entries, where
an array is keyed by its indices and a key is written as it is.

Main results:

* `canonical_eq` — the rendering is the text of that tree (`shape`), in whatever
  order a map is met;
* `canonical_tells`, `signature_tells` — where keys are plain, inputs, and calls,
  are told apart exactly if their trees are;
* `signatures_tell` — both;
* `key_reads_as_entries` — two inputs that are not told apart.
-/
import AgentBlock.Bridge.JsonTrip
import AgentBlock.Lib.KeyTree
import AgentBlock.Policy.Carry

namespace AgentBlock.Policy

open Bridge (WellFormed WellFormedItems WellFormedMembers nesting nestingItems nestingMembers
  numberIn)
open Quoted (quoted toList_quoted quotedChars_inj IsNumeral isNumeral_int isNumeral_of_all
  toString_digits)
open KeyTree (Marks render renderEntries renderRest PlainKey Plain PlainEntries Stops Leaves)
open Shell (isKind dataOf)

/-! ### Inputs -/

mutual

/-- How a JSON value reads in Lua. -/
def Reads : Json → Lua → Prop
  | .null, v => v = .null
  | .bool b, v => v = .bool b
  | .num n, v => v = .num (numberIn n)
  | .str s, v => v = .str s
  | .arr xs, v => ∃ items, v = .table items [] ∧ ReadsItems xs items
  | .obj members, v => ∃ fields met, v = .table [] met ∧ met.Perm fields ∧
      ReadsMembers members fields

def ReadsItems : List Json → List Lua → Prop
  | [], items => items = []
  | x :: xs, items => ∃ item rest, items = item :: rest ∧ Reads x item ∧ ReadsItems xs rest

def ReadsMembers : List (String × Json) → List (String × Lua) → Prop
  | [], fields => fields = []
  | (key, x) :: members, fields => ∃ field rest, fields = (key, field) :: rest ∧ Reads x field ∧
      ReadsMembers members rest

end

/-! ### Signatures -/

section

variable (tostring : Lua → String)

/-- The default signature of a beat: what it called, and nothing else. -/
def defaultSignature (events : List Lua) : Option String :=
  let parts := events.filterMap fun ev =>
    if isKind "tool_call" ev then
      some (tostring ((dataOf ev).get "name") ++
        canonical tostring MAX_CANONICAL_DEPTH ((dataOf ev).get "args"))
    else none
  if parts.isEmpty then none else some (String.intercalate ";" parts)

end

/-- The calls of a beat's events. -/
def Calls (events : List Lua) (calls : List (String × Json)) : Prop :=
  List.Forall₂ (fun ev call => (dataOf ev).get "name" = .str call.1 ∧
    Reads call.2 ((dataOf ev).get "args")) (events.filter (isKind "tool_call")) calls

/-! ### Trees -/

def marks : Marks Char where
  opening := '\x7b'
  closing := '\x7d'
  sep := ','
  assign := '='
  sep_ne := by decide
  assign_ne := by decide

/-- Entries in the order of their keys. -/
def byKey {α : Type} (entries : List (String × α)) : List (String × α) :=
  entries.mergeSort fun a b => a.1 ≤ b.1

/-- A node of these entries. -/
def nodeOf (entries : List (String × KeyTree Char)) : KeyTree Char :=
  .node ((byKey entries).map fun e => (e.1.toList, e.2))

section

variable (tostring : Lua → String)

mutual

/-- What is rendered of an input: of an array its items under their indices, and
of a value that is no table its text. -/
def shape : Json → KeyTree Char
  | .null => .leaf "<userdata>".toList
  | .bool b => .leaf (tostring (.bool b)).toList
  | .num n => .leaf (tostring (.num (numberIn n))).toList
  | .str s => .leaf (quoted s).toList
  | .arr xs => nodeOf (shapeItems 1 xs)
  | .obj members => nodeOf (shapeMembers members)

def shapeItems (i : ℕ) : List Json → List (String × KeyTree Char)
  | [] => []
  | x :: xs => (toString i, shape x) :: shapeItems (i + 1) xs

def shapeMembers : List (String × Json) → List (String × KeyTree Char)
  | [] => []
  | (key, x) :: members => (key, shape x) :: shapeMembers members

end

mutual

/-- No key holds a `=` or begins with a closing brace. -/
def KeysPlain : Json → Prop
  | .null => True
  | .bool _ => True
  | .num _ => True
  | .str _ => True
  | .arr xs => KeysPlainItems xs
  | .obj members => KeysPlainMembers members

def KeysPlainItems : List Json → Prop
  | [] => True
  | x :: xs => KeysPlain x ∧ KeysPlainItems xs

def KeysPlainMembers : List (String × Json) → Prop
  | [] => True
  | (key, x) :: members => PlainKey marks key.toList ∧ KeysPlain x ∧ KeysPlainMembers members

end

/-- What `tostring` writes: a string as it is, a boolean by its name, and a number
in the characters of one. -/
structure Prints : Prop where
  str : ∀ s, tostring (.str s) = s
  bool : ∀ b, tostring (.bool b) = if b then "true" else "false"
  num : ∀ n, IsNumeral (tostring (.num (numberIn n)))

end

/-! ### Leaves -/

/-- Where a value is over: at the next entry or call, or at the end of its node. -/
def stops : Set Char := {',', '\x7d', ';'}

/-- The text of a value that is no table. -/
def leafTexts : Set (List Char) :=
  {text | (∃ s, text = (quoted s).toList) ∨ text ≠ [] ∧
    ∀ c ∈ text, c ≠ '"' ∧ c ≠ '\x7b' ∧ c ∉ stops}

theorem takeWhile_stops [DecidablePred (· ∈ stops)] {text rest : List Char}
    (htext : ∀ c ∈ text, c ∉ stops) (hrest : Stops stops rest) :
    (text ++ rest).takeWhile (fun c => decide (c ∉ stops)) = text := by
  rw [List.takeWhile_append_of_pos fun c hc => decide_eq_true (htext c hc)]
  rcases rest with - | ⟨c, rest⟩
  · exact List.append_nil _
  · rw [List.takeWhile_cons_of_neg (by simpa using hrest c rfl), List.append_nil]

theorem leaves_apart : Leaves marks leafTexts stops where
  sep := .inl rfl
  closing := .inr (.inl rfl)
  first := by
    rintro text (⟨s, rfl⟩ | ⟨hne, hplain⟩)
    · rw [toList_quoted]
      exact ⟨'"', _, rfl, by decide⟩
    · rcases text with - | ⟨c, text⟩
      · exact absurd rfl hne
      · exact ⟨c, text, rfl, (hplain c List.mem_cons_self).2.1⟩
  apart := by
    classical
    rintro text (⟨s, rfl⟩ | ⟨hne, hplain⟩) text' (⟨s', rfl⟩ | ⟨hne', hplain'⟩) rest rest' hr hr' h
    · -- two strings
      rw [toList_quoted, toList_quoted, List.cons_append, List.cons_append, List.append_assoc,
        List.append_assoc] at h
      obtain ⟨hs, hrest⟩ := quotedChars_inj (List.cons.inj h).2
      exact ⟨by rw [String.toList_injective hs], hrest⟩
    · rw [toList_quoted] at h
      rcases text' with - | ⟨c, text'⟩
      · exact absurd rfl hne'
      · exact absurd (List.cons.inj h).1.symm (hplain' c List.mem_cons_self).1
    · rw [toList_quoted] at h
      rcases text with - | ⟨c, text⟩
      · exact absurd rfl hne
      · exact absurd (List.cons.inj h).1 (hplain c List.mem_cons_self).1
    · -- neither is one
      have htext := takeWhile_stops (fun c hc => (hplain c hc).2.2) hr
      rw [h, takeWhile_stops (fun c hc => (hplain' c hc).2.2) hr'] at htext
      subst htext
      exact ⟨rfl, List.append_cancel_left h⟩

/-! ### Renderings -/

section

variable {tostring : Lua → String}

theorem not_mark_of_isDigit {c : Char} (h : c.isDigit = true) :
    c ≠ '"' ∧ c ≠ '\x7b' ∧ c ≠ '\x7d' ∧ c ≠ ',' ∧ c ≠ ';' ∧ c ≠ '=' := by
  refine ⟨?_, ?_, ?_, ?_, ?_, ?_⟩ <;> rintro rfl <;> cases h

/-- An index is a plain key. -/
theorem plainKey_index (n : ℕ) : PlainKey marks (toString n).toList := by
  obtain ⟨-, hdigits⟩ := toString_digits n
  constructor
  · intro hmem
    exact (not_mark_of_isDigit (hdigits _ hmem)).2.2.2.2.2 rfl
  · intro c hc
    exact (not_mark_of_isDigit (hdigits c (List.mem_of_mem_head? hc))).2.2.1

/-- What is checked of each character in turn. -/
theorem of_all {P : Char → Prop} [DecidablePred P] {text : List Char}
    (h : (text.all fun c => decide (P c)) = true) : ∀ c ∈ text, P c :=
  fun c hc => of_decide_eq_true (List.all_eq_true.mp h c hc)

theorem leaf_of_plain {text : List Char} (hne : text ≠ [])
    (h : ∀ c ∈ text, c ≠ '"' ∧ c ≠ '\x7b' ∧ c ≠ '\x7d' ∧ c ≠ ',' ∧ c ≠ ';') : text ∈ leafTexts := by
  refine .inr ⟨hne, fun c hc => ⟨(h c hc).1, (h c hc).2.1, ?_⟩⟩
  obtain ⟨-, -, hclosing, hsep, hnext⟩ := h c hc
  rintro (rfl | rfl | rfl)
  · exact hsep rfl
  · exact hclosing rfl
  · exact hnext rfl

theorem plain_nodeOf {entries : List (String × KeyTree Char)}
    (h : ∀ e ∈ entries, PlainKey marks e.1.toList ∧ Plain marks leafTexts e.2) :
    Plain marks leafTexts (nodeOf entries) := by
  have hall : ∀ l : List (String × KeyTree Char),
      (∀ e ∈ l, PlainKey marks e.1.toList ∧ Plain marks leafTexts e.2) →
      PlainEntries marks leafTexts (l.map fun e => (e.1.toList, e.2)) := by
    intro l hl
    induction l with
    | nil => trivial
    | cons e l ih =>
        obtain ⟨hkey, ht⟩ := hl e List.mem_cons_self
        exact ⟨hkey, ht, ih fun e' he' => hl e' (List.mem_cons_of_mem _ he')⟩
  exact hall _ fun e he => h e (List.mem_mergeSort.mp he)

mutual

/-- The tree of an input has plain keys where the input does. -/
theorem plain_shape (h : Prints tostring) : (v : Json) → KeysPlain v →
    Plain marks leafTexts (shape tostring v)
  | .null, _ => leaf_of_plain (by decide) (of_all (by decide))
  | .bool b, _ => by
      rw [shape, h.bool]
      cases b
      · exact leaf_of_plain (by decide) (of_all (by decide))
      · exact leaf_of_plain (by decide) (of_all (by decide))
  | .num n, _ => by
      obtain ⟨hne, hchars⟩ := h.num n
      refine leaf_of_plain hne fun c hc => ?_
      rcases hchars c hc with hdigit | hsign
      · obtain ⟨h1, h2, h3, h4, h5, -⟩ := not_mark_of_isDigit hdigit
        exact ⟨h1, h2, h3, h4, h5⟩
      · simp only [List.mem_cons, List.not_mem_nil, or_false] at hsign
        rcases hsign with rfl | rfl | rfl | rfl <;> decide
  | .str s, _ => .inl ⟨s, rfl⟩
  | .arr xs, hv => plain_nodeOf (plain_shapeItems h xs hv 1)
  | .obj members, hv => plain_nodeOf (plain_shapeMembers h members hv)

theorem plain_shapeItems (h : Prints tostring) : (xs : List Json) → KeysPlainItems xs → (i : ℕ) →
    ∀ e ∈ shapeItems tostring i xs, PlainKey marks e.1.toList ∧ Plain marks leafTexts e.2
  | [], _, _ => fun e he => absurd he List.not_mem_nil
  | x :: xs, hv, i => by
      intro e he
      rcases List.mem_cons.mp he with rfl | he
      · exact ⟨plainKey_index i, plain_shape h x hv.1⟩
      · exact plain_shapeItems h xs hv.2 (i + 1) e he

theorem plain_shapeMembers (h : Prints tostring) : (members : List (String × Json)) →
    KeysPlainMembers members →
    ∀ e ∈ shapeMembers tostring members, PlainKey marks e.1.toList ∧ Plain marks leafTexts e.2
  | [], _ => fun e he => absurd he List.not_mem_nil
  | (key, x) :: members, hv => by
      intro e he
      rcases List.mem_cons.mp he with rfl | he
      · exact ⟨hv.1, plain_shape h x hv.2.1⟩
      · exact plain_shapeMembers h members hv.2.2 e he

end

/-- The entries of a node, one after the other. -/
theorem renderEntries_join (entries : List (String × KeyTree Char)) :
    renderEntries marks (entries.map fun e => (e.1.toList, e.2)) =
      (String.intercalate "," (entries.map fun e =>
        e.1 ++ "=" ++ String.ofList (render marks e.2))).toList ++ ['\x7d'] := by
  induction entries with
  | nil => rfl
  | cons e entries ih =>
      have hentry : (e.1 ++ "=" ++ String.ofList (render marks e.2)).toList =
          e.1.toList ++ '=' :: render marks e.2 := by simp
      rcases entries with - | ⟨e', entries⟩
      · rw [List.map_singleton, List.map_singleton, String.intercalate_singleton, hentry]
        show e.1.toList ++ '=' :: (render marks e.2 ++ ['\x7d']) = _
        rw [List.append_assoc]
        rfl
      · rw [List.map_cons, List.map_cons] at ih
        rw [List.map_cons, List.map_cons, List.map_cons, List.map_cons,
          String.intercalate_cons_cons]
        have hrest : renderEntries marks ((e.1.toList, e.2) :: (e'.1.toList, e'.2) ::
            entries.map fun e => (e.1.toList, e.2)) =
            e.1.toList ++ '=' :: (render marks e.2 ++ ',' :: renderEntries marks
              ((e'.1.toList, e'.2) :: entries.map fun e => (e.1.toList, e.2))) := by
          simp only [renderEntries, renderRest, marks]
        rw [hrest, ih, String.toList_append, String.toList_append, hentry]
        simp

theorem byKey_trans {α : Type} (a b c : String × α) (hab : decide (a.1 ≤ b.1) = true)
    (hbc : decide (b.1 ≤ c.1) = true) : decide (a.1 ≤ c.1) = true :=
  decide_eq_true ((of_decide_eq_true hab).trans (of_decide_eq_true hbc))

theorem byKey_total {α : Type} (a b : String × α) :
    (decide (a.1 ≤ b.1) || decide (b.1 ≤ a.1)) = true := by
  rw [Bool.or_eq_true, decide_eq_true_iff, decide_eq_true_iff]
  exact le_total _ _

/-- Entries in the order of their keys are the same from any order they are met
in. -/
theorem byKey_perm {α : Type} {l l' : List (String × α)} (h : l.Perm l')
    (hnodup : (l.map Prod.fst).Nodup) : byKey l = byKey l' := by
  have hperm : (byKey l).Perm (byKey l') :=
    (List.mergeSort_perm l _).trans (h.trans (List.mergeSort_perm l' _).symm)
  refine hperm.eq_of_pairwise ?_ (List.pairwise_mergeSort byKey_trans byKey_total l)
    (List.pairwise_mergeSort byKey_trans byKey_total l')
  intro a b ha hb hab hba
  have hkey := le_antisymm (of_decide_eq_true hab) (of_decide_eq_true hba)
  exact List.inj_on_of_nodup_map hnodup (List.mem_mergeSort.mp ha)
    (h.mem_iff.mpr (List.mem_mergeSort.mp hb)) hkey

theorem byKey_map {α β : Type} (f : α → β) (l : List (String × α)) :
    (byKey l).map (fun e => (e.1, f e.2)) = byKey (l.map fun e => (e.1, f e.2)) :=
  List.map_mergeSort fun _ _ _ _ => rfl

/-- Where each entry renders as its tree does, so does the table. -/
theorem canonical_table {levels : ℕ} {items : List Lua} {fields : List (String × Lua)}
    {entries : List (String × KeyTree Char)}
    (h : byKey ((entriesOf items fields).map fun e => (e.1, canonical tostring levels e.2)) =
      byKey (entries.map fun e => (e.1, String.ofList (render marks e.2)))) :
    canonical tostring (levels + 1) (.table items fields) =
      String.ofList (render marks (nodeOf entries)) := by
  rw [← byKey_map (canonical tostring levels),
    ← byKey_map fun t => String.ofList (render marks t)] at h
  have htexts := congrArg (List.map fun e : String × String => e.1 ++ "=" ++ e.2) h
  rw [List.map_map, List.map_map] at htexts
  rw [canonical, nodeOf, render, renderEntries_join]
  show "\x7b" ++ String.intercalate "," ((byKey (entriesOf items fields)).map _) ++ "\x7d" = _
  rw [show (byKey (entriesOf items fields)).map
      (fun e => e.1 ++ "=" ++ canonical tostring levels e.2) =
    (byKey entries).map (fun e => e.1 ++ "=" ++ String.ofList (render marks e.2)) from htexts]
  apply String.toList_injective
  simp [marks]

theorem reads_not_nil {v : Json} {lv : Lua} (h : Reads v lv) : lv.isNil = false := by
  cases v with
  | arr xs =>
      obtain ⟨items, rfl, -⟩ := h
      rfl
  | obj members =>
      obtain ⟨fields, met, rfl, -⟩ := h
      rfl
  | _ =>
      cases h
      rfl

theorem readsItems_not_nil {xs : List Json} {items : List Lua} (h : ReadsItems xs items) :
    ∀ item ∈ items, item.isNil = false := by
  induction xs generalizing items with
  | nil =>
      cases h
      exact fun _ hitem => absurd hitem List.not_mem_nil
  | cons x xs ih =>
      obtain ⟨item, rest, rfl, hx, hxs⟩ := h
      exact List.forall_mem_cons.mpr ⟨reads_not_nil hx, ih hxs⟩

theorem readsMembers_keys {members : List (String × Json)} {fields : List (String × Lua)}
    (h : ReadsMembers members fields) :
    fields.map Prod.fst = members.map Prod.fst ∧ ∀ f ∈ fields, f.2.isNil = false := by
  induction members generalizing fields with
  | nil =>
      cases h
      exact ⟨rfl, fun _ hf => absurd hf List.not_mem_nil⟩
  | cons m members ih =>
      obtain ⟨key, x⟩ := m
      obtain ⟨field, rest, rfl, hx, hxs⟩ := h
      obtain ⟨hkeys, hnil⟩ := ih hxs
      exact ⟨congrArg (key :: ·) hkeys, List.forall_mem_cons.mpr ⟨reads_not_nil hx, hnil⟩⟩

theorem entriesOf_items {items : List Lua} (h : ∀ item ∈ items, item.isNil = false) :
    entriesOf items [] = items.zipIdx.map fun p => (toString (p.2 + 1), p.1) := by
  rw [entriesOf, List.append_nil]
  refine List.filter_eq_self.mpr fun e he => ?_
  obtain ⟨p, hp, rfl⟩ := List.mem_map.mp he
  rw [h _ (List.fst_mem_of_mem_zipIdx hp)]
  rfl

theorem entriesOf_fields {fields : List (String × Lua)} (h : ∀ f ∈ fields, f.2.isNil = false) :
    entriesOf [] fields = fields := by
  refine List.filter_eq_self.mpr fun e he => ?_
  rw [h e he]
  rfl

mutual

/-- **The rendering of an input** is the text of its tree. -/
theorem canonical_eq : (v : Json) → {levels : ℕ} → {lv : Lua} → WellFormed v → nesting v < levels →
    Reads v lv → canonical tostring levels lv = String.ofList (render marks (shape tostring v))
  | .null, levels, _, _, _, hr => by
      cases hr
      cases levels <;> rfl
  | .bool b, levels, _, _, _, hr => by
      cases hr
      rw [shape, render, String.ofList_toList]
      cases levels <;> rfl
  | .num n, levels, _, _, _, hr => by
      cases hr
      rw [shape, render, String.ofList_toList]
      cases levels <;> rfl
  | .str s, levels, _, _, _, hr => by
      cases hr
      rw [shape, render, String.ofList_toList]
      cases levels <;> rfl
  | .arr xs, 0, _, _, hn, _ => absurd hn (Nat.not_lt_zero _)
  | .obj members, 0, _, _, hn, _ => absurd hn (Nat.not_lt_zero _)
  | .arr xs, levels + 1, _, hv, hn, hr => by
      obtain ⟨items, rfl, hitems⟩ := hr
      refine canonical_table (congrArg byKey ?_)
      rw [entriesOf_items (readsItems_not_nil hitems)]
      exact canonical_items xs hv (Nat.le_of_lt_succ hn) hitems 0
  | .obj members, levels + 1, _, hv, hn, hr => by
      obtain ⟨fields, met, rfl, hperm, hfields⟩ := hr
      obtain ⟨hkeys, hnil⟩ := readsMembers_keys hfields
      refine canonical_table ?_
      rw [entriesOf_fields fun f hf => hnil f (hperm.mem_iff.mp hf)]
      -- the keys are sorted, so the order in which `pairs` hands them out does not matter
      have htexts := canonical_members members hv.2 (Nat.le_of_lt_succ hn) hfields
      rw [← htexts]
      refine byKey_perm (hperm.map _) ?_
      rw [List.map_map]
      refine ((hperm.map Prod.fst).nodup_iff.mpr ?_)
      rw [hkeys]
      exact hv.1.imp fun h => h.ne

theorem canonical_items : (xs : List Json) → {levels : ℕ} → {items : List Lua} →
    WellFormedItems xs → nestingItems xs ≤ levels → ReadsItems xs items → (i : ℕ) →
    ((items.zipIdx i).map fun p => (toString (p.2 + 1), p.1)).map
        (fun e => (e.1, canonical tostring levels e.2)) =
      (shapeItems tostring (i + 1) xs).map fun e => (e.1, String.ofList (render marks e.2))
  | [], _, _, _, _, hr, _ => by
      cases hr
      rfl
  | x :: xs, levels, _, hv, hn, hr, i => by
      obtain ⟨item, rest, rfl, hx, hxs⟩ := hr
      have hle : max (nesting x + 1) (nestingItems xs) ≤ levels := hn
      have hitem := canonical_eq x hv.1 (Nat.lt_of_succ_le (le_of_max_le_left hle)) hx
      have hrest := canonical_items xs hv.2 (le_of_max_le_right hle) hxs (i + 1)
      rw [List.zipIdx_cons, List.map_cons, List.map_cons, hrest, hitem]
      rfl

theorem canonical_members : (members : List (String × Json)) → {levels : ℕ} →
    {fields : List (String × Lua)} → WellFormedMembers members →
    nestingMembers members ≤ levels → ReadsMembers members fields →
    fields.map (fun e => (e.1, canonical tostring levels e.2)) =
      (shapeMembers tostring members).map fun e => (e.1, String.ofList (render marks e.2))
  | [], _, _, _, _, hr => by
      cases hr
      rfl
  | (key, x) :: members, levels, _, hv, hn, hr => by
      obtain ⟨field, rest, rfl, hx, hxs⟩ := hr
      have hle : max (nesting x + 1) (nestingMembers members) ≤ levels := hn
      have hfield := canonical_eq x hv.1 (Nat.lt_of_succ_le (le_of_max_le_left hle)) hx
      have hrest := canonical_members members hv.2 (le_of_max_le_right hle) hxs
      rw [List.map_cons, hrest, hfield]
      rfl

end

/-! ### Inputs told apart -/

variable {v w : Json} {lv lw : Lua}

/-- **Inputs are told apart** exactly if their trees are. -/
theorem canonical_tells (h : Prints tostring) (hv : WellFormed v) (hw : WellFormed w)
    (hnv : nesting v < MAX_CANONICAL_DEPTH) (hnw : nesting w < MAX_CANONICAL_DEPTH)
    (hlv : Reads v lv) (hlw : Reads w lw) (hkv : KeysPlain v) (hkw : KeysPlain w) :
    canonical tostring MAX_CANONICAL_DEPTH lv = canonical tostring MAX_CANONICAL_DEPTH lw ↔
      shape tostring v = shape tostring w := by
  rw [canonical_eq v hv hnv hlv, canonical_eq w hw hnw hlw]
  constructor
  · intro heq
    refine (KeyTree.render_inj leaves_apart _ _ (plain_shape h v hkv) (plain_shape h w hkw) [] []
      (fun c hc => absurd hc nofun) (fun c hc => absurd hc nofun) ?_).1
    rw [String.ofList_injective heq]
  · intro heq
    rw [heq]

/-! ### Beats told apart -/

/-- A call whose tree begins where its name ends. -/
structure PlainCall (call : String × Json) : Prop where
  name : '\x7b' ∉ call.1.toList
  table : (∃ xs, call.2 = .arr xs) ∨ ∃ members, call.2 = .obj members
  wellFormed : WellFormed call.2
  shallow : nesting call.2 < MAX_CANONICAL_DEPTH
  keys : KeysPlain call.2

/-- What is rendered of a call. -/
def shapeCall (tostring : Lua → String) (call : String × Json) : String × KeyTree Char :=
  (call.1, shape tostring call.2)

/-- Calls, one after the other. -/
def renderCalls : List (String × KeyTree Char) → List Char
  | [] => []
  | call :: calls => call.1.toList ++ (render marks call.2 ++
      if calls.isEmpty then [] else ';' :: renderCalls calls)

theorem renderCalls_join (calls : List (String × KeyTree Char)) :
    String.intercalate ";" (calls.map fun c => c.1 ++ String.ofList (render marks c.2)) =
      String.ofList (renderCalls calls) := by
  induction calls with
  | nil => rfl
  | cons c calls ih =>
      apply String.toList_injective
      rcases calls with - | ⟨c', calls⟩
      · rw [List.map_singleton, String.intercalate_singleton, renderCalls]
        simp
      · rw [List.map_cons] at ih
        rw [List.map_cons, List.map_cons, String.intercalate_cons_cons, ih]
        rw [show renderCalls (c :: c' :: calls) = c.1.toList ++ (render marks c.2 ++
          ';' :: renderCalls (c' :: calls)) from rfl]
        simp

/-- The parts of a signature are the calls as they are rendered. -/
theorem signature_parts {events : List Lua} (h : Prints tostring)
    {calls : List (String × Json)} (hcalls : Calls events calls)
    (hplain : ∀ call ∈ calls, PlainCall call) :
    (events.filterMap fun ev =>
      if isKind "tool_call" ev then
        some (tostring ((dataOf ev).get "name") ++
          canonical tostring MAX_CANONICAL_DEPTH ((dataOf ev).get "args"))
      else none) =
      (calls.map (shapeCall tostring)).map fun c => c.1 ++ String.ofList (render marks c.2) := by
  induction events generalizing calls with
  | nil =>
      cases hcalls
      rfl
  | cons ev events ih =>
      rw [Calls, List.filter_cons] at hcalls
      rw [List.filterMap_cons]
      by_cases hkind : isKind "tool_call" ev = true
      · rw [if_pos hkind] at hcalls
        rcases hcalls with - | ⟨⟨hname, hargs⟩, hcalls⟩
        rename_i call calls
        have hcall := hplain call List.mem_cons_self
        rw [if_pos hkind, hname, h.str, canonical_eq call.2 hcall.wellFormed hcall.shallow hargs,
          List.map_cons, List.map_cons]
        exact congrArg (_ :: ·) (ih hcalls fun c hc => hplain c (List.mem_cons_of_mem _ hc))
      · rw [if_neg hkind] at hcalls ⊢
        exact ih hcalls hplain

theorem defaultSignature_eq {events : List Lua} (h : Prints tostring)
    {calls : List (String × Json)} (hcalls : Calls events calls)
    (hplain : ∀ call ∈ calls, PlainCall call) :
    defaultSignature tostring events =
      if calls.isEmpty then none
      else some (String.ofList (renderCalls (calls.map (shapeCall tostring)))) := by
  rw [defaultSignature, signature_parts h hcalls hplain, renderCalls_join]
  rcases calls with - | ⟨call, calls⟩ <;> rfl

theorem renderCalls_inj {calls calls' : List (String × KeyTree Char)}
    (h : ∀ c ∈ calls, '\x7b' ∉ c.1.toList ∧ (∃ es, c.2 = .node es) ∧ Plain marks leafTexts c.2)
    (h' : ∀ c ∈ calls', '\x7b' ∉ c.1.toList ∧ (∃ es, c.2 = .node es) ∧ Plain marks leafTexts c.2)
    (heq : renderCalls calls = renderCalls calls') : calls = calls' := by
  have hne : ∀ (c : String × KeyTree Char) (cs : List (String × KeyTree Char)),
      (∃ es, c.2 = .node es) → renderCalls (c :: cs) ≠ [] := by
    rintro c cs ⟨es, hes⟩ hnil
    rw [renderCalls, hes, render] at hnil
    simp at hnil
  induction calls generalizing calls' with
  | nil =>
      rcases calls' with - | ⟨c', calls'⟩
      · rfl
      · exact absurd heq.symm (hne c' calls' (h' c' List.mem_cons_self).2.1)
  | cons c calls ih =>
      obtain ⟨hname, ⟨es, hes⟩, htree⟩ := h c List.mem_cons_self
      rcases calls' with - | ⟨c', calls'⟩
      · exact absurd heq (hne c calls ⟨es, hes⟩)
      · obtain ⟨hname', ⟨es', hes'⟩, htree'⟩ := h' c' List.mem_cons_self
        obtain ⟨name, t⟩ := c
        obtain ⟨name', t'⟩ := c'
        obtain rfl : t = .node es := hes
        obtain rfl : t' = .node es' := hes'
        rw [renderCalls, renderCalls] at heq
        obtain ⟨hn, hrest⟩ := Split.append_inj_first hname hname' heq
        -- what follows a call is the end or a semicolon, at which a tree stops
        have hstops : ∀ cs : List (String × KeyTree Char),
            Stops stops (if cs.isEmpty then [] else ';' :: renderCalls cs) := by
          intro cs c hc
          split at hc
          · cases hc
          · cases hc
            exact .inr (.inr rfl)
        obtain ⟨ht, htail⟩ := KeyTree.render_inj leaves_apart (.node es) (.node es') htree htree'
          _ _ (hstops calls) (hstops calls') (congrArg ('\x7b' :: ·) hrest)
        obtain rfl : name = name' := String.toList_injective hn
        rw [ht]
        refine congrArg ((name, KeyTree.node es') :: ·) ?_
        have hcalls := fun c hc => h c (List.mem_cons_of_mem _ hc)
        have hcalls' := fun c hc => h' c (List.mem_cons_of_mem _ hc)
        rcases calls with - | ⟨d, calls⟩ <;> rcases calls' with - | ⟨d', calls'⟩
        · rfl
        · cases htail
        · cases htail
        · exact ih hcalls hcalls' (List.cons.inj htail).2

/-- **Beats are told apart** exactly if the trees of their calls are. -/
theorem signature_tells (h : Prints tostring) {events events' : List Lua}
    {calls calls' : List (String × Json)} (hcalls : Calls events calls)
    (hcalls' : Calls events' calls') (hplain : ∀ call ∈ calls, PlainCall call)
    (hplain' : ∀ call ∈ calls', PlainCall call) :
    defaultSignature tostring events = defaultSignature tostring events' ↔
      calls.map (shapeCall tostring) = calls'.map (shapeCall tostring) := by
  have hshapes : ∀ cs : List (String × Json), (∀ call ∈ cs, PlainCall call) →
      ∀ c ∈ cs.map (shapeCall tostring),
        '\x7b' ∉ c.1.toList ∧ (∃ es, c.2 = .node es) ∧ Plain marks leafTexts c.2 := by
    intro cs hcs c hc
    obtain ⟨⟨name, input⟩, hcall, rfl⟩ := List.mem_map.mp hc
    obtain ⟨hname, htable, -, -, hkeys⟩ := hcs _ hcall
    refine ⟨hname, ?_, plain_shape h input hkeys⟩
    rcases htable with ⟨xs, rfl⟩ | ⟨members, rfl⟩
    · exact ⟨_, rfl⟩
    · exact ⟨_, rfl⟩
  rw [defaultSignature_eq h hcalls hplain, defaultSignature_eq h hcalls' hplain']
  constructor
  · intro heq
    rcases calls with - | ⟨call, calls⟩ <;> rcases calls' with - | ⟨call', calls'⟩
    · rfl
    · cases heq
    · cases heq
    · refine renderCalls_inj (hshapes _ hplain) (hshapes _ hplain') ?_
      exact String.ofList_injective (Option.some.inj heq)
  · intro heq
    rw [heq]
    rcases calls with - | ⟨call, calls⟩ <;> rcases calls' with - | ⟨call', calls'⟩
    · rfl
    · cases heq
    · cases heq
    · rfl

end

/-- Calls of the same tools, in order, with equal arguments. -/
def SameCalls : List (String × Json) → List (String × Json) → Prop :=
  List.Forall₂ fun call call' => call.1 = call'.1 ∧ Json.Same call.2 call'.2

/-- **Signatures tell inputs and beats apart**, where keys are plain, exactly if
their trees do: an array is not told from the map of its indices, nor are two
numbers that are written alike, and equal numbers that are not are two. -/
theorem signatures_tell {tostring : Lua → String} (h : Prints tostring) :
    (∀ (v w : Json) (lv lw : Lua), WellFormed v → WellFormed w →
      nesting v < MAX_CANONICAL_DEPTH → nesting w < MAX_CANONICAL_DEPTH →
      Reads v lv → Reads w lw → KeysPlain v → KeysPlain w →
      ((canonical tostring MAX_CANONICAL_DEPTH lv = canonical tostring MAX_CANONICAL_DEPTH lw ↔
          Json.Same v w) ↔ (shape tostring v = shape tostring w ↔ Json.Same v w))) ∧
      ∀ (events events' : List Lua) (calls calls' : List (String × Json)),
        Calls events calls → Calls events' calls' →
        (∀ call ∈ calls, PlainCall call) → (∀ call ∈ calls', PlainCall call) →
        ((defaultSignature tostring events = defaultSignature tostring events' ↔
            SameCalls calls calls') ↔
          (calls.map (shapeCall tostring) = calls'.map (shapeCall tostring) ↔
            SameCalls calls calls')) := by
  constructor
  · intro v w lv lw hv hw hnv hnw hlv hlw hkv hkw
    rw [canonical_tells h hv hw hnv hnw hlv hlw hkv hkw]
  · intro events events' calls calls' hcalls hcalls' hplain hplain'
    rw [signature_tells h hcalls hcalls' hplain hplain']

/-- What `tostring` writes of booleans, strings, integers and the zeros; of other
numbers a digit. -/
def printed : Lua → String
  | .str s => s
  | .bool b => if b then "true" else "false"
  | .num (.int n) => toString n
  | .num .negZero => "-0.0"
  | .num _ => "0.0"
  | _ => ""

theorem prints_printed : Prints printed where
  str _ := rfl
  bool _ := rfl
  num n := by
    have hzero : IsNumeral "0.0" ∧ IsNumeral "-0.0" :=
      ⟨isNumeral_of_all (by decide) (by decide), isNumeral_of_all (by decide) (by decide)⟩
    cases n with
    | int n =>
        rw [numberIn]
        split
        · exact isNumeral_int n
        · exact hzero.1
    | float q => exact hzero.1
    | negZero => exact hzero.2

theorem wellFormed_single (key : String) {n : Int} (h : 0 ≤ n) (hn : n < 10) :
    WellFormed (.obj [(key, .num (.int n))]) :=
  ⟨List.pairwise_singleton _ _, ⟨by omega, by omega⟩, trivial⟩

theorem reads_single (key : String) (x : Json) {field : Lua} (h : Reads x field) :
    Reads (.obj [(key, x)]) (.table [] [(key, field)]) :=
  ⟨_, _, rfl, .refl _, field, [], rfl, h, rfl⟩

/-- Two inputs of one key, and the beat of no call and of one. -/
theorem one_two_told :
    (canonical printed MAX_CANONICAL_DEPTH (.table [] [("a", .num (.int 1))]) =
        canonical printed MAX_CANONICAL_DEPTH (.table [] [("a", .num (.int 2))]) ↔
      Json.Same (.obj [("a", .num (.int 1))]) (.obj [("a", .num (.int 2))])) ∧
      (defaultSignature printed [] =
          defaultSignature printed [.table [] [("kind", .str "tool_call"),
            ("data", .table [] [("name", .str "grep"), ("args", .table [] [])])]] ↔
        SameCalls [] [("grep", .obj [])]) := by
  have hhead : ∀ c ∈ "a".toList.head?, c ≠ marks.closing := by
    intro c hc
    obtain rfl : 'a' = c := Option.some.inj hc
    decide
  have hkeys : ∀ n : Int, KeysPlain (.obj [("a", .num (.int n))]) := fun n =>
    ⟨⟨by decide, hhead⟩, trivial, trivial⟩
  refine ⟨((signatures_tell prints_printed).1 _ _ _ _
    (wellFormed_single "a" (by decide) (by decide)) (wellFormed_single "a" (by decide) (by decide))
    (by decide) (by decide)
    (reads_single "a" (.num (.int 1)) rfl) (reads_single "a" (.num (.int 2)) rfl)
    (hkeys 1) (hkeys 2)).mpr ?_,
    ((signatures_tell prints_printed).2 [] _ [] [("grep", .obj [])] .nil ?_ nofun ?_).mpr
      (iff_of_false nofun nofun)⟩
  · refine iff_of_false ?_ fun hsame =>
      absurd (show ((1 : ℤ) : ℚ) = (2 : ℤ) from hsame.2.1) (by decide)
    intro hshape
    have hnode := KeyTree.node.inj hshape
    simp only [byKey, shapeMembers, List.mergeSort_singleton] at hnode
    cases hnode
  · exact .cons ⟨rfl, _, _, rfl, .refl _, rfl⟩ .nil
  · intro call hcall
    obtain rfl := List.mem_singleton.mp hcall
    exact ⟨by decide, .inr ⟨_, rfl⟩, ⟨List.Pairwise.nil, trivial⟩, by decide, trivial⟩

/-- A key that holds an entry and a separator reads as that entry. -/
theorem canonical_entries (tostring : Lua → String) {levels : ℕ} {a b : String} {x y : Lua}
    (hx : x.isNil = false) (hy : y.isNil = false) (hab : a ≤ b) :
    canonical tostring (levels + 1) (.table [] [(a, x), (b, y)]) =
      canonical tostring (levels + 1)
        (.table [] [(a ++ "=" ++ canonical tostring levels x ++ "," ++ b, y)]) := by
  have htwo : entriesOf [] [(a, x), (b, y)] = [(a, x), (b, y)] :=
    entriesOf_fields (by simp [hx, hy])
  have hone : entriesOf [] [(a ++ "=" ++ canonical tostring levels x ++ "," ++ b, y)] =
      [(a ++ "=" ++ canonical tostring levels x ++ "," ++ b, y)] :=
    entriesOf_fields (by simp [hy])
  rw [canonical, canonical, htwo, hone,
    List.mergeSort_of_pairwise (List.pairwise_pair.mpr (decide_eq_true hab)),
    List.mergeSort_of_pairwise (List.pairwise_singleton _ _)]
  apply String.toList_injective
  simp

/-- Of two inputs that are not equal, one string: a key is written as it is. -/
theorem key_reads_as_entries : ¬ ∀ (v w : Json) (lv lw : Lua), WellFormed v → WellFormed w →
    nesting v < MAX_CANONICAL_DEPTH → nesting w < MAX_CANONICAL_DEPTH →
    Reads v lv → Reads w lw →
    (canonical printed MAX_CANONICAL_DEPTH lv = canonical printed MAX_CANONICAL_DEPTH lw ↔
      Json.Same v w) := by
  intro hclaim
  have htwo : WellFormed (.obj [("a", .num (.int 1)), ("b", .num (.int 2))]) :=
    ⟨List.pairwise_pair.mpr (by decide), ⟨by decide, by decide⟩, ⟨by decide, by decide⟩, trivial⟩
  have hsame := (hclaim _ _ _ _ htwo (wellFormed_single "a=1,b" (by decide) (by decide)) (by decide)
    (by decide) ⟨_, _, rfl, .refl _, _, _, rfl, rfl, _, _, rfl, rfl, rfl⟩
    (reads_single "a=1,b" (.num (.int 2)) rfl)).mp (canonical_entries printed rfl rfl (by decide))
  exact absurd hsame.1 (by decide)

end AgentBlock.Policy
