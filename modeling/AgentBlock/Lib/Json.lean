/-
AgentBlock/Lib/Json.lean

JSON values, and objects as finite maps kept in the order of their keys.

An object is the list of its members in the order a reader meets them.
`Obj.insert` keeps the list sorted and replaces the member of a key it already
has, so the lookup lemmas below hold of any list and need no well-formedness
of it.
-/
import Mathlib.Data.List.Nodup
import Mathlib.Data.String.Basic

/-- A JSON number: a whole one, or one written with a fraction or an
exponent. -/
inductive JsonNumber where
  | int (n : Int)
  | float (q : Rat)
  /-- `-0.0`, whose value is that of `0.0`. -/
  | negZero
  deriving DecidableEq

/-- The value of a number. -/
def JsonNumber.val : JsonNumber → Rat
  | int n => n
  | float q => q
  | negZero => 0

/-- A JSON value. -/
inductive Json where
  | null
  | bool (b : Bool)
  | num (n : JsonNumber)
  | str (s : String)
  | arr (xs : List Json)
  | obj (members : List (String × Json))

/-- The members of an object. -/
abbrev Obj := List (String × Json)

namespace Json

/-- The string a value is. -/
def asStr : Json → Option String
  | .str s => some s
  | _ => none

/-- The members of the object a value is. -/
def asObject : Json → Option Obj
  | .obj members => some members
  | _ => none

@[simp] theorem asStr_str (s : String) : (Json.str s).asStr = some s := rfl

@[simp] theorem asObject_obj (members : Obj) :
    (Json.obj members).asObject = some members := rfl

/-! ### Equality of values -/

mutual

/-- Equality as values: of numbers that of what they are, however they are
written.  Members are compared in the order they stand in. -/
def Same : Json → Json → Prop
  | .null, .null => True
  | .bool b, .bool c => b = c
  | .num m, .num n => m.val = n.val
  | .str s, .str t => s = t
  | .arr xs, .arr ys => SameItems xs ys
  | .obj members, .obj members' => SameMembers members members'
  | _, _ => False

def SameItems : List Json → List Json → Prop
  | [], [] => True
  | x :: xs, y :: ys => Same x y ∧ SameItems xs ys
  | _, _ => False

def SameMembers : List (String × Json) → List (String × Json) → Prop
  | [], [] => True
  | (key, x) :: members, (key', y) :: members' => key = key' ∧ Same x y ∧ SameMembers members members'
  | _, _ => False

end

mutual

/-- The numbers a value holds. -/
def numbers : Json → List JsonNumber
  | .num n => [n]
  | .arr xs => numbersItems xs
  | .obj members => numbersMembers members
  | _ => []

def numbersItems : List Json → List JsonNumber
  | [] => []
  | x :: xs => numbers x ++ numbersItems xs

def numbersMembers : List (String × Json) → List JsonNumber
  | [] => []
  | (_, x) :: members => numbers x ++ numbersMembers members

end

mutual

theorem Same.refl : ∀ v : Json, Same v v
  | .null => trivial
  | .bool _ => rfl
  | .num _ => rfl
  | .str _ => rfl
  | .arr xs => SameItems.refl xs
  | .obj members => SameMembers.refl members

theorem SameItems.refl : ∀ xs : List Json, SameItems xs xs
  | [] => trivial
  | x :: xs => ⟨Same.refl x, SameItems.refl xs⟩

theorem SameMembers.refl : ∀ members : List (String × Json), SameMembers members members
  | [] => trivial
  | (_, x) :: members => ⟨rfl, Same.refl x, SameMembers.refl members⟩

end

/-- Two of these numbers that are equal are written alike. -/
def Spelled (ms ns : List JsonNumber) : Prop := ∀ m ∈ ms, ∀ n ∈ ns, m.val = n.val → m = n

theorem Spelled.left {ms ms' ns ns' : List JsonNumber} (h : Spelled (ms ++ ms') (ns ++ ns')) :
    Spelled ms ns :=
  fun m hm n hn => h m (List.mem_append_left _ hm) n (List.mem_append_left _ hn)

theorem Spelled.right {ms ms' ns ns' : List JsonNumber} (h : Spelled (ms ++ ms') (ns ++ ns')) :
    Spelled ms' ns' :=
  fun m hm n hn => h m (List.mem_append_right _ hm) n (List.mem_append_right _ hn)

mutual

/-- Equal values whose equal numbers are written alike are one. -/
theorem eq_of_same : ∀ {v w : Json}, Spelled v.numbers w.numbers → Same v w → v = w
  | .null, w, _, hvw => by cases w <;> first | rfl | exact absurd hvw id
  | .bool _, w, _, hvw => by cases w <;> first | exact congrArg bool hvw | exact absurd hvw id
  | .str _, w, _, hvw => by cases w <;> first | exact congrArg str hvw | exact absurd hvw id
  | .num m, w, h, hvw => by
      cases w with
      | num n => exact congrArg num (h m List.mem_cons_self n List.mem_cons_self hvw)
      | _ => exact absurd hvw id
  | .arr xs, w, h, hvw => by
      cases w with
      | arr ys => exact congrArg arr (eq_of_sameItems h hvw)
      | _ => exact absurd hvw id
  | .obj members, w, h, hvw => by
      cases w with
      | obj members' => exact congrArg obj (eq_of_sameMembers h hvw)
      | _ => exact absurd hvw id

theorem eq_of_sameItems : ∀ {xs ys : List Json}, Spelled (numbersItems xs) (numbersItems ys) →
    SameItems xs ys → xs = ys
  | [], [], _, _ => rfl
  | [], _ :: _, _, hsame => absurd hsame id
  | _ :: _, [], _, hsame => absurd hsame id
  | _ :: _, _ :: _, h, hsame => by
      rw [eq_of_same h.left hsame.1, eq_of_sameItems h.right hsame.2]

theorem eq_of_sameMembers : ∀ {members members' : List (String × Json)},
    Spelled (numbersMembers members) (numbersMembers members') → SameMembers members members' →
    members = members'
  | [], [], _, _ => rfl
  | [], _ :: _, _, hsame => absurd hsame id
  | _ :: _, [], _, hsame => absurd hsame id
  | (_, _) :: _, (_, _) :: _, h, hsame => by
      rw [hsame.1, eq_of_same h.left hsame.2.1, eq_of_sameMembers h.right hsame.2.2]

end

end Json

namespace Obj

/-- The value of a key. -/
def get? : Obj → String → Option Json
  | [], _ => none
  | (k, v) :: rest, key => if k = key then some v else get? rest key

/-- Set a key, replacing what it had. -/
def insert : Obj → String → Json → Obj
  | [], key, v => [(key, v)]
  | (k, w) :: rest, key, v =>
      if k = key then (key, v) :: rest
      else if key < k then (key, v) :: (k, w) :: rest
      else (k, w) :: insert rest key v

/-- Drop a key. -/
def remove (o : Obj) (key : String) : Obj := o.filter fun m => m.1 ≠ key

@[simp] theorem get?_nil (key : String) : get? [] key = none := rfl

@[simp] theorem get?_insert_self (o : Obj) (key : String) (v : Json) :
    (o.insert key v).get? key = some v := by
  induction o with
  | nil => simp [insert, get?]
  | cons m rest ih =>
      obtain ⟨k, w⟩ := m
      simp only [insert]
      split
      · simp [get?]
      · split <;> simp [get?, *]

@[simp] theorem get?_insert_of_ne (o : Obj) {key key' : String} (v : Json)
    (h : key ≠ key') : (o.insert key v).get? key' = o.get? key' := by
  induction o with
  | nil => simp [insert, get?, h]
  | cons m rest ih =>
      obtain ⟨k, w⟩ := m
      simp only [insert]
      split
      · rename_i hk
        subst hk
        simp [get?, h]
      · split <;> simp [get?, h, ih]

theorem get?_insert (o : Obj) (key key' : String) (v : Json) :
    (o.insert key v).get? key' = if key' = key then some v else o.get? key' := by
  split
  · rename_i h
    rw [h, get?_insert_self]
  · rename_i h
    exact get?_insert_of_ne _ _ (Ne.symm h)

@[simp] theorem get?_remove_of_ne (o : Obj) {key key' : String} (h : key ≠ key') :
    (o.remove key).get? key' = o.get? key' := by
  induction o with
  | nil => rfl
  | cons m rest ih =>
      obtain ⟨k, w⟩ := m
      simp only [remove, List.filter_cons] at ih ⊢
      by_cases hk : k = key
      · subst hk
        simpa [get?, h] using ih
      · simp only [ne_eq, hk, not_false_eq_true, decide_true, if_true, get?, ih]

@[simp] theorem get?_remove_self (o : Obj) (key : String) :
    (o.remove key).get? key = none := by
  induction o with
  | nil => rfl
  | cons m rest ih =>
      obtain ⟨k, w⟩ := m
      simp only [remove, List.filter_cons] at ih ⊢
      by_cases hk : k = key
      · simpa [hk] using ih
      · simpa [hk, get?] using ih

theorem get?_mem {o : Obj} {key : String} {v : Json} (h : o.get? key = some v) :
    (key, v) ∈ o := by
  induction o with
  | nil => cases h
  | cons m rest ih =>
      obtain ⟨k, w⟩ := m
      simp only [get?] at h
      split at h
      · rename_i hk
        cases h
        exact hk ▸ List.mem_cons_self
      · exact List.mem_cons_of_mem _ (ih h)

theorem get?_of_mem {members : Obj} {m : String × Json}
    (hnodup : (members.map Prod.fst).Nodup) (h : m ∈ members) :
    get? members m.1 = some m.2 := by
  induction members with
  | nil => exact absurd h List.not_mem_nil
  | cons m' members ih =>
      obtain ⟨hfresh, hrest⟩ := List.nodup_cons.mp hnodup
      rcases List.mem_cons.mp h with rfl | hmem
      · exact if_pos rfl
      · have hne : m'.1 ≠ m.1 := fun heq => hfresh (heq ▸ List.mem_map_of_mem hmem)
        exact (if_neg hne).trans (ih hrest hmem)

theorem get?_of_not_mem {members : Obj} {key : String}
    (h : key ∉ members.map Prod.fst) : get? members key = none := by
  induction members with
  | nil => rfl
  | cons m members ih =>
      obtain ⟨hne, hrest⟩ := not_or.mp fun hmem => h (List.mem_cons.mpr hmem)
      exact (if_neg (Ne.symm hne)).trans (ih hrest)

/-- Members are put into an object in any order. -/
theorem insert_perm {o : Obj} {key : String} {v : Json} (h : key ∉ o.map Prod.fst) :
    (o.insert key v).Perm ((key, v) :: o) := by
  induction o with
  | nil => exact List.Perm.refl _
  | cons m o ih =>
      obtain ⟨k, w⟩ := m
      obtain ⟨hk, hrest⟩ := not_or.mp (fun hmem => h (List.mem_cons.mpr hmem))
      rw [insert, if_neg fun heq => hk heq.symm]
      split
      · exact List.Perm.refl _
      · exact ((ih hrest).cons _).trans (List.Perm.swap _ _ _)

theorem mem_insert {o : Obj} {key : String} {v : Json} {m : String × Json}
    (h : m ∈ o.insert key v) : m = (key, v) ∨ m ∈ o := by
  induction o with
  | nil => exact Or.inl (List.mem_singleton.mp h)
  | cons m' o ih =>
      obtain ⟨k, w⟩ := m'
      rw [insert] at h
      split_ifs at h
      · exact (List.mem_cons.mp h).imp_right (List.mem_cons_of_mem _)
      · exact List.mem_cons.mp h
      · rcases List.mem_cons.mp h with rfl | h
        · exact Or.inr List.mem_cons_self
        · exact (ih h).imp_right (List.mem_cons_of_mem _)

theorem insert_sorted {o : Obj} {key : String} {v : Json}
    (ho : (o.map Prod.fst).Pairwise (· < ·)) :
    ((o.insert key v).map Prod.fst).Pairwise (· < ·) := by
  induction o with
  | nil => exact List.pairwise_singleton _ _
  | cons m o ih =>
      obtain ⟨k, w⟩ := m
      obtain ⟨hhead, hrest⟩ := List.pairwise_cons.mp ho
      rw [insert]
      split_ifs with heq hlt
      · subst heq
        exact ho
      · refine List.pairwise_cons.mpr ⟨?_, ho⟩
        rintro k' (_ | ⟨_, hk'⟩)
        · exact hlt
        · exact hlt.trans (hhead k' hk')
      · refine List.pairwise_cons.mpr ⟨?_, ih hrest⟩
        intro k' hk'
        obtain ⟨m, hm, rfl⟩ := List.mem_map.mp hk'
        rcases mem_insert hm with rfl | hm
        · exact lt_of_le_of_ne (le_of_not_gt hlt) heq
        · exact hhead m.1 (List.mem_map_of_mem hm)

theorem foldl_insert_spec {l o : Obj} (ho : (o.map Prod.fst).Pairwise (· < ·))
    (hnodup : ((o ++ l).map Prod.fst).Nodup) :
    ((l.foldl (fun (o : Obj) m => o.insert m.1 m.2) o).map Prod.fst).Pairwise (· < ·) ∧
      (l.foldl (fun (o : Obj) m => o.insert m.1 m.2) o).Perm (o ++ l) := by
  induction l generalizing o with
  | nil => exact ⟨ho, by rw [List.append_nil]; exact List.Perm.refl _⟩
  | cons m l ih =>
      have hfresh : m.1 ∉ o.map Prod.fst := by
        rw [List.map_append, List.map_cons] at hnodup
        exact fun h => (List.nodup_middle.mp hnodup).notMem (List.mem_append_left _ h)
      have hmove : ((o.insert m.1 m.2) ++ l).Perm (o ++ m :: l) :=
        ((insert_perm hfresh).append_right l).trans List.perm_middle.symm
      obtain ⟨hsorted, hperm⟩ := ih (insert_sorted ho)
        ((hmove.map Prod.fst).nodup_iff.mpr hnodup)
      exact ⟨hsorted, hperm.trans hmove⟩

/-- The members of an object, put into one in any order, are that object. -/
theorem foldl_insert {members l : Obj} (hsorted : (members.map Prod.fst).Pairwise (· < ·))
    (hperm : l.Perm members) :
    l.foldl (fun (o : Obj) m => o.insert m.1 m.2) [] = members := by
  have hnodup : (l.map Prod.fst).Nodup :=
    (hperm.map Prod.fst).nodup_iff.mpr (hsorted.imp fun h => h.ne)
  obtain ⟨hfold, hfoldPerm⟩ := foldl_insert_spec (o := ([] : Obj)) List.Pairwise.nil hnodup
  refine (hfoldPerm.trans hperm).eq_of_pairwise ?_ (List.pairwise_map.mp hfold)
    (List.pairwise_map.mp hsorted)
  intro a b _ _ hab hba
  exact absurd (hab.trans hba) (lt_irrefl _)

theorem get?_append (l l' : Obj) (key : String) :
    get? (l ++ l') key = (get? l key).or (get? l' key) := by
  induction l with
  | nil => rfl
  | cons m l ih =>
      show (if m.1 = key then some m.2 else get? (l ++ l') key) =
        Option.or (if m.1 = key then some m.2 else get? l key) (get? l' key)
      split
      · rfl
      · exact ih

theorem get?_reverse {l : Obj} (hnodup : (l.map Prod.fst).Nodup) (key : String) :
    get? l.reverse key = get? l key := by
  by_cases h : key ∈ l.map Prod.fst
  · obtain ⟨m, hm, rfl⟩ := List.mem_map.mp h
    have hreverse : (l.reverse.map Prod.fst).Nodup := by
      rw [List.map_reverse]
      exact List.nodup_reverse.mpr hnodup
    rw [get?_of_mem hnodup hm, get?_of_mem hreverse (List.mem_reverse.mpr hm)]
  · rw [get?_of_not_mem h, get?_of_not_mem]
    rw [List.map_reverse]
    exact fun hmem => h (List.mem_reverse.mp hmem)

/-- Members put into an object one after the other: the last of a key stays. -/
theorem get?_foldl_insert (l o : Obj) (key : String) :
    (l.foldl (fun (o : Obj) m => o.insert m.1 m.2) o).get? key =
      (get? l.reverse key).or (o.get? key) := by
  induction l generalizing o with
  | nil => rfl
  | cons m l ih =>
      rw [List.foldl_cons, ih, List.reverse_cons, get?_append, Option.or_assoc, get?_insert]
      show _ = Option.or _ (Option.or (if m.1 = key then some m.2 else none) _)
      by_cases h : m.1 = key
      · rw [if_pos h, if_pos h.symm]
        rfl
      · rw [if_neg h, if_neg (Ne.symm h)]
        rfl

/-- Two objects that read alike are one. -/
theorem ext_sorted {o o' : Obj} (ho : (o.map Prod.fst).Pairwise (· < ·))
    (ho' : (o'.map Prod.fst).Pairwise (· < ·)) (h : ∀ key, o.get? key = o'.get? key) : o = o' := by
  have hnodup : ∀ {l : Obj}, (l.map Prod.fst).Pairwise (· < ·) → (l.map Prod.fst).Nodup :=
    fun hl => hl.imp fun h => h.ne
  have hmem : ∀ {l l' : Obj}, (l.map Prod.fst).Pairwise (· < ·) →
      (∀ key, l.get? key = l'.get? key) → ∀ m ∈ l, m ∈ l' := by
    intro l l' hl heq m hm
    have hget := get?_of_mem (hnodup hl) hm
    rw [heq] at hget
    exact get?_mem hget
  have hperm : o.Perm o' := (List.perm_ext_iff_of_nodup (.of_map _ (hnodup ho))
    (.of_map _ (hnodup ho'))).mpr
    fun m => ⟨hmem ho h m, hmem ho' (fun key => (h key).symm) m⟩
  refine hperm.eq_of_pairwise ?_ (List.pairwise_map.mp ho) (List.pairwise_map.mp ho')
  intro a b _ _ hab hba
  exact absurd (hab.trans hba) (lt_irrefl _)

theorem remove_sorted {o : Obj} {key : String} (ho : (o.map Prod.fst).Pairwise (· < ·)) :
    ((o.remove key).map Prod.fst).Pairwise (· < ·) := by
  rw [List.pairwise_map] at ho ⊢
  exact ho.filter _

end Obj
