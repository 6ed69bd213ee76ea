/-
AgentBlock/Lib/Split.lean

Splitting a list around an element or a separator, and trimming it.
-/
import Mathlib.Data.List.DropRight
import Mathlib.Data.List.Basic

namespace Split

variable {α : Type*} [DecidableEq α] {a : α} {l r xs : List α}

/-- Around the first `a`. -/
def first (a : α) : List α → Option (List α × List α)
  | [] => none
  | x :: xs => if x = a then some ([], xs) else (first a xs).map fun p => (x :: p.1, p.2)

/-- Around the last `a`. -/
def last (a : α) : List α → Option (List α × List α)
  | [] => none
  | x :: xs =>
      match last a xs with
      | some (l, r) => some (x :: l, r)
      | none => if x = a then some ([], xs) else none

/-- Around the first place the list reads `sep`. -/
def once (sep : List α) : List α → Option (List α × List α)
  | [] => if sep = [] then some ([], []) else none
  | x :: xs =>
      if sep <+: x :: xs then some ([], (x :: xs).drop sep.length)
      else (once sep xs).map fun p => (x :: p.1, p.2)

/-- What is left when what stands at both ends and satisfies `p` is dropped. -/
def trim (p : α → Bool) (xs : List α) : List α := (xs.dropWhile p).rdropWhile p

theorem first_eq_none : first a xs = none ↔ a ∉ xs := by
  induction xs with
  | nil => simp [first]
  | cons x xs ih =>
      by_cases hx : x = a
      · simp [first, hx]
      · simp [first, hx, ih, Ne.symm hx]

theorem of_first (h : first a xs = some (l, r)) : xs = l ++ a :: r ∧ a ∉ l := by
  induction xs generalizing l with
  | nil => cases h
  | cons x xs ih =>
      by_cases hx : x = a
      · obtain ⟨rfl, rfl⟩ : [] = l ∧ xs = r := by simpa [first, hx] using h
        exact ⟨by rw [hx]; rfl, List.not_mem_nil⟩
      · obtain ⟨l', hfirst, rfl⟩ : ∃ l', first a xs = some (l', r) ∧ x :: l' = l := by
          simpa [first, hx] using h
        obtain ⟨rfl, hl⟩ := ih hfirst
        exact ⟨rfl, by simp [Ne.symm hx, hl]⟩

theorem last_eq_none : last a xs = none ↔ a ∉ xs := by
  induction xs with
  | nil => simp [last]
  | cons x xs ih =>
      cases hlast : last a xs with
      | some p => simp [last, hlast, ← ih]
      | none =>
          have hxs := ih.mp hlast
          by_cases hx : x = a
          · simp [last, hlast, hx]
          · simp [last, hlast, hx, hxs, Ne.symm hx]

theorem of_last (h : last a xs = some (l, r)) : xs = l ++ a :: r ∧ a ∉ r := by
  induction xs generalizing l with
  | nil => cases h
  | cons x xs ih =>
      cases hlast : last a xs with
      | some p =>
          obtain ⟨l', r'⟩ := p
          obtain ⟨rfl, rfl⟩ : x :: l' = l ∧ r' = r := by simpa [last, hlast] using h
          obtain ⟨rfl, hr⟩ := ih hlast
          exact ⟨rfl, hr⟩
      | none =>
          obtain ⟨rfl, rfl, rfl⟩ : x = a ∧ [] = l ∧ xs = r := by simpa [last, hlast] using h
          exact ⟨rfl, last_eq_none.mp hlast⟩

/-- The first `a` of a list is where it is. -/
theorem first_append (r : List α) (h : a ∉ l) : first a (l ++ a :: r) = some (l, r) := by
  induction l with
  | nil => simp [first]
  | cons x l ih =>
      obtain ⟨hx, hl⟩ : a ≠ x ∧ a ∉ l := by simpa using h
      simp [first, Ne.symm hx, ih hl]

/-- A list is split around its first `a` in one way. -/
theorem append_inj_first {l' r' : List α} (hl : a ∉ l) (hl' : a ∉ l')
    (h : l ++ a :: r = l' ++ a :: r') : l = l' ∧ r = r' := by
  have heq := first_append r hl
  rw [h, first_append r' hl'] at heq
  cases heq
  exact ⟨rfl, rfl⟩

/-- The last `a` of a list is where it is. -/
theorem last_append (l : List α) (h : a ∉ r) : last a (l ++ a :: r) = some (l, r) := by
  induction l with
  | nil => simp [last, last_eq_none.mpr h]
  | cons x l ih => simp [last, ih]

theorem not_mem_splitOn (h : l ∈ xs.splitOn a) : a ∉ l := by
  induction xs generalizing l with
  | nil =>
      rw [List.splitOn_nil, List.mem_singleton] at h
      rw [h]
      exact List.not_mem_nil
  | cons x xs ih =>
      rw [List.splitOn_cons_eq_if_modifyHead] at h
      split at h
      next =>
        rcases List.mem_cons.mp h with rfl | h
        · exact List.not_mem_nil
        · exact ih h
      next hx =>
        obtain ⟨l₀, ls, hls⟩ := List.exists_cons_of_ne_nil (List.splitOn_ne_nil a xs)
        rw [hls] at h ih
        rcases List.mem_cons.mp h with rfl | h
        · intro hmem
          rcases List.mem_cons.mp hmem with heq | hmem
          · exact hx (by simp [heq])
          · exact ih List.mem_cons_self hmem
        · exact ih (List.mem_cons_of_mem _ h)

/-- The separator is not there, -/
theorem once_eq_none {sep : List α} :
    once sep xs = none ↔ ∀ q ≤ xs.length, ¬ sep <+: xs.drop q := by
  induction xs with
  | nil =>
      constructor
      · intro h q _ hsep
        have hnil : sep = [] := by simpa using hsep
        simp [once, hnil] at h
      · intro h
        have hnil : ¬ sep <+: [] := h 0 (Nat.le_refl _)
        show (if sep = [] then some ([], []) else none) = none
        exact if_neg fun hsep : sep = [] => hnil (hsep.symm ▸ List.prefix_rfl)
  | cons x xs ih =>
      by_cases hhere : sep <+: x :: xs
      · refine iff_of_false ?_ fun h => h 0 (Nat.zero_le _) hhere
        simp [once, hhere]
      · have hrest : once sep (x :: xs) = (once sep xs).map fun p => (x :: p.1, p.2) :=
          if_neg hhere
        rw [hrest, Option.map_eq_none_iff, ih]
        constructor
        · intro h q hq
          cases q with
          | zero => exact hhere
          | succ q => exact h q (Nat.le_of_succ_le_succ hq)
        · exact fun h q hq => h (q + 1) (Nat.succ_le_succ hq)

/-- or the list is read around the first place it is at. -/
theorem of_once {sep : List α} (h : once sep xs = some (l, r)) :
    xs = l ++ sep ++ r ∧ ∀ q < l.length, ¬ sep <+: xs.drop q := by
  induction xs generalizing l with
  | nil =>
      by_cases hnil : sep = []
      · obtain ⟨rfl, rfl⟩ : [] = l ∧ [] = r := by simpa [once, hnil] using h
        exact ⟨by rw [hnil]; rfl, fun q hq => absurd hq (Nat.not_lt_zero q)⟩
      · simp [once, hnil] at h
  | cons x xs ih =>
      by_cases hhere : sep <+: x :: xs
      · obtain ⟨rfl, rfl⟩ : [] = l ∧ (x :: xs).drop sep.length = r := by
          simpa [once, hhere] using h
        refine ⟨?_, fun q hq => absurd hq (Nat.not_lt_zero q)⟩
        rw [List.nil_append]
        exact (List.prefix_iff_eq_append.mp hhere).symm
      · have hrest : once sep (x :: xs) = (once sep xs).map fun p => (x :: p.1, p.2) :=
          if_neg hhere
        rw [hrest, Option.map_eq_some_iff] at h
        obtain ⟨⟨l', r'⟩, honce, heq⟩ := h
        obtain ⟨rfl, rfl⟩ := Prod.mk.inj heq
        obtain ⟨hxs, hbefore⟩ := ih honce
        refine ⟨by rw [hxs]; rfl, fun q hq => ?_⟩
        cases q with
        | zero => exact hhere
        | succ q => exact hbefore q (Nat.lt_of_succ_lt_succ hq)

/-- A separator of one element is read around as that element is. -/
theorem once_singleton (xs : List α) : once [a] xs = first a xs := by
  induction xs with
  | nil => simp [once, first]
  | cons x xs ih => simp [once, first, ih, List.cons_prefix_cons, eq_comm]

theorem once_of_not_infix {sep : List α} (h : ¬ sep <:+: xs) : once sep xs = none :=
  once_eq_none.mpr fun q _ hpre => h (hpre.isInfix.trans (List.drop_suffix q xs).isInfix)

/-- A separator whose first element it has once only does not begin inside itself:
the first one in a list is where it is. -/
theorem once_append {sep : List α} {s : α} {rest : List α} (hsep : sep = s :: rest)
    (honce : s ∉ rest) (r : List α) (h : ¬ sep <:+: l) :
    once sep (l ++ (sep ++ r)) = some (l, r) := by
  induction l with
  | nil =>
      subst hsep
      simp [once]
  | cons x l ih =>
      have hhere : ¬ sep <+: x :: (l ++ (sep ++ r)) := by
        intro hpre
        rw [← List.cons_append] at hpre
        rcases Nat.le_total sep.length (x :: l).length with hle | hle
        · exact h (List.prefix_of_prefix_length_le hpre (List.prefix_append _ _) hle).isInfix
        · -- it would begin again inside itself, or right behind
          obtain ⟨t, ht⟩ := List.prefix_of_prefix_length_le (List.prefix_append _ _) hpre hle
          rcases t with - | ⟨y, t⟩
          · rw [List.append_nil] at ht
            rw [ht] at h
            exact h List.infix_rfl
          · rw [← ht, List.prefix_append_right_inj, ht, hsep] at hpre
            obtain rfl := (List.cons_prefix_cons.mp hpre).1
            rw [hsep] at ht
            obtain ⟨-, htail⟩ := List.cons.inj ht
            exact honce (htail ▸ List.mem_append_right _ List.mem_cons_self)
      have hrest := ih fun hin => h (hin.trans (List.suffix_cons x l).isInfix)
      show once sep (x :: (l ++ (sep ++ r))) = _
      rw [once, if_neg hhere, hrest]
      rfl

section

variable {β : Type*} {p : β → Prop} {x : β} {before front more after : List β}

/-- What stands around an element of a list, where what is appended has none of
its kind. -/
theorem of_append_eq (hmore : ∀ y ∈ more, ¬p y) (hx : p x)
    (h : front ++ more = before ++ x :: after) :
    ∃ rest, front = before ++ x :: rest ∧ after = rest ++ more := by
  rcases List.append_eq_append_iff.mp h with ⟨gap, -, hgap⟩ | ⟨gap, hgap, hafter⟩
  · exact absurd hx (hmore x (hgap ▸ by simp))
  · cases gap with
    | nil =>
        obtain rfl : x :: after = more := hafter
        exact absurd hx (hmore x List.mem_cons_self)
    | cons y rest =>
        obtain ⟨rfl, rfl⟩ := List.cons_eq_cons.mp hafter
        exact ⟨rest, hgap, rfl⟩

/-- What stands around an element of a list, where what is put ahead has none of
its kind. -/
theorem of_prepend_eq (hfront : ∀ y ∈ front, ¬p y) (hx : p x)
    (h : front ++ more = before ++ x :: after) :
    ∃ rest, before = front ++ rest ∧ more = rest ++ x :: after := by
  rcases List.append_eq_append_iff.mp h with ⟨gap, hgap, hmore⟩ | ⟨gap, hgap, hafter⟩
  · exact ⟨gap, hgap, hmore⟩
  · cases gap with
    | nil => exact ⟨[], by rw [hgap, List.append_nil, List.append_nil], hafter.symm⟩
    | cons y rest =>
        obtain ⟨rfl, -⟩ := List.cons_eq_cons.mp hafter
        exact absurd hx (hfront x (hgap ▸ by simp))

/-- What stands around an element of a filtered list stands around it in the
list. -/
theorem of_filter_eq {keep : β → Bool} {xs : List β}
    (h : xs.filter keep = before ++ x :: after) :
    ∃ front rest, xs = front ++ x :: rest ∧ front.filter keep = before ∧
      rest.filter keep = after := by
  obtain ⟨first, others, rfl, rfl, hothers⟩ := List.filter_eq_append_iff.mp h
  obtain ⟨gap, rest, rfl, hgap, -, rfl⟩ := List.filter_eq_cons_iff.mp hothers
  refine ⟨first ++ gap, rest, by rw [List.append_assoc], ?_, rfl⟩
  rw [List.filter_append, List.filter_eq_nil_iff.mpr fun y hy => hgap y hy, List.append_nil]

end

/-- Texts joined by a character none of them holds. -/
theorem intercalate_inj {c : Char} {l l' : List String}
    (hl : ∀ s ∈ l, s ≠ "" ∧ c ∉ s.toList) (hl' : ∀ s ∈ l', s ≠ "" ∧ c ∉ s.toList)
    (h : String.intercalate (String.singleton c) l = String.intercalate (String.singleton c) l') :
    l = l' := by
  have hsplit := String.toList_split_intercalate fun s hs => (hl s hs).2
  rw [h, String.toList_split_intercalate fun s hs => (hl' s hs).2] at hsplit
  split at hsplit <;> split at hsplit
  · subst_vars
    rfl
  · have hempty : "" ∈ l := hsplit ▸ List.mem_singleton_self _
    exact absurd rfl (hl _ hempty).1
  · have hempty : "" ∈ l' := hsplit ▸ List.mem_singleton_self _
    exact absurd rfl (hl' _ hempty).1
  · exact hsplit.symm

end Split
