/-
AgentBlock/Lib/Table.lean

Joins, groups and orders over lists of rows.

A join gives every row a row for each of its matches, so it lists what the rows
have one of exactly where no row matches another as well
(`flatMap_eq_filterMap_iff`).  A grouping of several tables read as one is the
groupings of each exactly where no key is in two of them
(`groups_flatten_perm_iff`).
-/
import Mathlib.Data.List.Dedup
import Mathlib.Data.List.Nodup
import Mathlib.Data.List.Sort

namespace Table

variable {α β γ κ : Type*}

/-! ### Joins -/

section Join

variable {xs : List α} {found : α → List β} {own : α → Option β}

theorem length_toList_le {x : α} (hown : ∀ b ∈ own x, b ∈ found x) :
    (own x).toList.length ≤ (found x).length := by
  cases hx : own x with
  | none => exact Nat.zero_le _
  | some b =>
      cases hfound : found x with
      | nil => exact absurd (hfound ▸ hown b hx) List.not_mem_nil
      | cons b' rest => exact Nat.succ_le_succ (Nat.zero_le _)

theorem length_own_le (hown : ∀ x ∈ xs, ∀ b ∈ own x, b ∈ found x) :
    (xs.flatMap fun x => (own x).toList).length ≤ (xs.flatMap found).length := by
  induction xs with
  | nil => exact le_rfl
  | cons x xs ih =>
      obtain ⟨hx, hxs⟩ := List.forall_mem_cons.mp hown
      rw [List.flatMap_cons, List.flatMap_cons, List.length_append, List.length_append]
      exact Nat.add_le_add (length_toList_le hx) (ih hxs)

/-- As many matches as there are own ones are the own ones. -/
theorem found_eq_own (hown : ∀ x ∈ xs, ∀ b ∈ own x, b ∈ found x)
    (hlen : (xs.flatMap found).length = (xs.flatMap fun x => (own x).toList).length) :
    ∀ x ∈ xs, found x = (own x).toList := by
  induction xs with
  | nil => exact nofun
  | cons x xs ih =>
      obtain ⟨hx, hxs⟩ := List.forall_mem_cons.mp hown
      simp only [List.flatMap_cons, List.length_append] at hlen
      have hhead := length_toList_le hx
      have htail := length_own_le hxs
      refine List.forall_mem_cons.mpr ⟨?_, ih hxs (by omega)⟩
      have heq : (found x).length = (own x).toList.length := by omega
      cases hown : own x with
      | none =>
          rw [hown] at heq
          exact List.length_eq_zero_iff.mp heq
      | some b =>
          rw [hown] at heq
          obtain ⟨b', hb'⟩ := List.length_eq_one_iff.mp heq
          have hmem := hx b hown
          rw [hb'] at hmem
          rw [hb', List.mem_singleton.mp hmem]
          rfl

/-- **A join lists the own matches** exactly where there are no others. -/
theorem flatMap_eq_filterMap_iff (hown : ∀ x ∈ xs, ∀ b ∈ own x, b ∈ found x) (row : α → β → γ) :
    (xs.flatMap fun x => (found x).map (row x)) = (xs.filterMap fun x => (own x).map (row x)) ↔
      ∀ x ∈ xs, found x = (own x).toList := by
  have hright : (xs.filterMap fun x => (own x).map (row x)) =
      xs.flatMap fun x => (own x).toList.map (row x) := by
    rw [List.filterMap_eq_flatMap_toList]
    congr 1
    funext x
    cases own x <;> rfl
  rw [hright]
  constructor
  · intro h
    refine found_eq_own hown ?_
    have hlen := congrArg List.length h
    simpa only [List.length_flatMap, List.length_map] using hlen
  · exact fun h => List.flatMap_congr fun x hx => by rw [h x hx]

end Join

/-! ### Groups -/

section Groups

variable [DecidableEq κ] (key : α → κ)

/-- The rows of each key, under it. -/
def groups (xs : List α) : List (κ × List α) :=
  (xs.map key).dedup.map fun k => (k, xs.filter fun x => key x = k)

variable {key} {xs ys : List α} {xss : List (List α)}

theorem length_groups : (groups key xs).length = (xs.map key).dedup.length := List.length_map _

/-- Two tables without a common key. -/
theorem groups_append_perm (h : ∀ x ∈ xs, ∀ y ∈ ys, key x ≠ key y) :
    (groups key (xs ++ ys)).Perm (groups key xs ++ groups key ys) := by
  have hdisjoint : ((xs.map key).dedup ++ (ys.map key).dedup).Nodup := by
    refine List.nodup_append.mpr ⟨List.nodup_dedup _, List.nodup_dedup _, fun a ha b hb => ?_⟩
    obtain ⟨x, hx, rfl⟩ := List.mem_map.mp (List.mem_dedup.mp ha)
    obtain ⟨y, hy, rfl⟩ := List.mem_map.mp (List.mem_dedup.mp hb)
    exact h x hx y hy
  have hkeys : ((xs ++ ys).map key).dedup.Perm ((xs.map key).dedup ++ (ys.map key).dedup) := by
    refine (List.perm_ext_iff_of_nodup (List.nodup_dedup _) hdisjoint).mpr fun k => ?_
    simp only [List.mem_dedup, List.map_append, List.mem_append]
  refine (hkeys.map _).trans (List.Perm.of_eq ?_)
  rw [List.map_append, groups, groups]
  refine congrArg₂ (· ++ ·) (List.map_congr_left fun k hk => ?_)
    (List.map_congr_left fun k hk => ?_)
  · obtain ⟨x, hx, rfl⟩ := List.mem_map.mp (List.mem_dedup.mp hk)
    have hnone : ys.filter (fun y => key y = key x) = [] :=
      List.filter_eq_nil_iff.mpr fun y hy => by simpa using (h x hx y hy).symm
    rw [List.filter_append, hnone, List.append_nil]
  · obtain ⟨y, hy, rfl⟩ := List.mem_map.mp (List.mem_dedup.mp hk)
    have hnone : xs.filter (fun x => key x = key y) = [] :=
      List.filter_eq_nil_iff.mpr fun x hx => by simpa using h x hx y hy
    rw [List.filter_append, hnone, List.nil_append]

/-- No key is in two of the tables. -/
def Disjoint (key : α → κ) (xss : List (List α)) : Prop :=
  xss.Pairwise fun xs ys => ∀ x ∈ xs, ∀ y ∈ ys, key x ≠ key y

theorem groups_flatten_perm (h : Disjoint key xss) :
    (groups key xss.flatten).Perm (xss.flatMap (groups key)) := by
  induction xss with
  | nil => exact .refl _
  | cons xs xss ih =>
      obtain ⟨hxs, hxss⟩ := List.pairwise_cons.mp h
      rw [List.flatten_cons, List.flatMap_cons]
      refine (groups_append_perm fun x hx y hy => ?_).trans ((ih hxss).append_left _)
      obtain ⟨ys, hys, hy⟩ := List.mem_flatten.mp hy
      exact hxs ys hys x hx y hy

/-- **Tables read as one are grouped as each is** exactly where no key is in two
of them. -/
theorem groups_flatten_perm_iff (row : κ × List α → γ) :
    ((groups key xss.flatten).map row).Perm (xss.flatMap fun xs => (groups key xs).map row) ↔
      Disjoint key xss := by
  constructor
  · intro h
    have hlen := h.length_eq
    simp only [List.length_map, length_groups, List.length_flatMap] at hlen
    -- the keys of each table, one after the other
    let keys := xss.flatMap fun xs => (xs.map key).dedup
    have hperm : keys.dedup.Perm (xss.flatten.map key).dedup := by
      refine (List.perm_ext_iff_of_nodup (List.nodup_dedup _) (List.nodup_dedup _)).mpr fun k => ?_
      simp only [keys, List.mem_dedup, List.mem_flatMap, List.mem_map, List.mem_flatten]
      exact ⟨fun ⟨xs, hxs, x, hx, hk⟩ => ⟨x, ⟨xs, hxs, hx⟩, hk⟩,
        fun ⟨x, ⟨xs, hxs, hx⟩, hk⟩ => ⟨xs, hxs, x, hx, hk⟩⟩
    have hkeys : keys.dedup = keys := by
      refine (List.dedup_sublist keys).eq_of_length ?_
      rw [hperm.length_eq, hlen, List.length_flatMap]
    obtain ⟨-, hpairwise⟩ := List.nodup_flatMap.mp (hkeys ▸ List.nodup_dedup keys)
    refine hpairwise.imp fun hdisjoint x hx y hy hkey => ?_
    refine hdisjoint (a := key x) ?_ ?_
    · exact List.mem_dedup.mpr (List.mem_map_of_mem hx)
    · rw [hkey]
      exact List.mem_dedup.mpr (List.mem_map_of_mem hy)
  · intro h
    rw [← List.map_flatMap]
    exact (groups_flatten_perm h).map row

end Groups

/-! ### Parts -/

section Parts

variable [DecidableEq κ] {key : α → κ} {xs : List α}

/-- The rows that satisfy one of two predicates that exclude each other. -/
theorem filter_append_filter_perm {p q : α → Bool} (h : ∀ x ∈ xs, p x = true → q x = false) :
    (xs.filter p ++ xs.filter q).Perm (xs.filter fun x => p x || q x) := by
  induction xs with
  | nil => exact .refl _
  | cons x xs ih =>
      obtain ⟨hx, hxs⟩ := List.forall_mem_cons.mp h
      simp only [List.filter_cons]
      cases hp : p x with
      | true =>
          rw [hx hp]
          exact (ih hxs).cons x
      | false =>
          cases hq : q x with
          | true => exact List.perm_middle.trans ((ih hxs).cons x)
          | false => exact ih hxs

/-- The rows of some keys, key by key. -/
theorem flatMap_filter_perm {keys : List κ} (h : keys.Nodup) :
    (keys.flatMap fun k => xs.filter fun x => key x = k).Perm
      (xs.filter fun x => key x ∈ keys) := by
  induction keys with
  | nil =>
      rw [List.flatMap_nil, List.filter_eq_nil_iff.mpr fun x _ => by simp]
  | cons k keys ih =>
      obtain ⟨hk, hkeys⟩ := List.nodup_cons.mp h
      rw [List.flatMap_cons]
      refine ((ih hkeys).append_left _).trans ?_
      refine (filter_append_filter_perm fun x _ hx => ?_).trans (List.Perm.of_eq ?_)
      · obtain rfl := of_decide_eq_true hx
        exact decide_eq_false hk
      · refine List.filter_congr fun x _ => ?_
        simp only [List.mem_cons, Bool.decide_or]

end Parts

/-! ### Orders -/

section Order

variable [LinearOrder κ] (key : α → κ)

/-- The rows by a key; of one key, as they were. -/
def orderBy (xs : List α) : List α := xs.insertionSort fun a b => key a ≤ key b

variable {key} {xs ys : List α}

theorem orderBy_perm : (orderBy key xs).Perm xs := List.perm_insertionSort _ _

theorem orderBy_pairwise : (orderBy key xs).Pairwise fun a b => key a ≤ key b := by
  have htotal : Std.Total fun a b : α => key a ≤ key b := ⟨fun a b => le_total _ _⟩
  have htrans : IsTrans α fun a b => key a ≤ key b := ⟨fun a b c => le_trans⟩
  exact List.pairwise_insertionSort _ xs

/-- Rows of different keys are in one order only. -/
theorem eq_orderBy (hperm : ys.Perm xs) (hys : ys.Pairwise fun a b => key a ≤ key b)
    (hinj : ∀ a ∈ xs, ∀ b ∈ xs, key a = key b → a = b) : ys = orderBy key xs := by
  refine List.Perm.eq_of_pairwise (fun a b ha hb hab hba => ?_) hys orderBy_pairwise
    (hperm.trans orderBy_perm.symm)
  exact hinj a (hperm.mem_iff.mp ha) b (orderBy_perm.mem_iff.mp hb) (le_antisymm hab hba)

end Order

end Table
