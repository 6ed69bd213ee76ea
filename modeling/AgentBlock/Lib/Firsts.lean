/-
AgentBlock/Lib/Firsts.lean

The keys of a list in the order they first appear, with the places they first
appear at.

Cutting the list at a first appearance cuts the keys there too
(`firsts_split`): what stands before it has exactly the keys before it.
-/
import Mathlib.Data.List.Basic

section Firsts

variable {α κ : Type} [DecidableEq κ] (key : α → Option κ)

/-- The keys that are not among `seen`, from the place `i` on. -/
def firstsFrom (seen : List κ) (i : Nat) : List α → List (κ × Nat)
  | [] => []
  | x :: rest =>
      match key x with
      | none => firstsFrom seen (i + 1) rest
      | some k =>
          if k ∈ seen then firstsFrom seen (i + 1) rest
          else (k, i) :: firstsFrom (k :: seen) (i + 1) rest

/-- Each key, with the place of the first item that has it. -/
def firsts (xs : List α) : List (κ × Nat) := firstsFrom key [] 0 xs

variable {key} {seen : List κ} {i : Nat} {xs : List α}

theorem firstsFrom_not_seen : ∀ p ∈ firstsFrom key seen i xs, p.1 ∉ seen := by
  induction xs generalizing seen i with
  | nil => exact nofun
  | cons x rest ih =>
      intro p hp
      rw [firstsFrom] at hp
      split at hp
      · exact ih p hp
      split at hp
      · exact ih p hp
      · next hk =>
        rcases List.mem_cons.mp hp with rfl | hp
        · exact hk
        · exact fun hmem => ih p hp (List.mem_cons_of_mem _ hmem)

theorem nodup_firstsFrom : ((firstsFrom key seen i xs).map Prod.fst).Nodup := by
  induction xs generalizing seen i with
  | nil => exact List.nodup_nil
  | cons x rest ih =>
      rw [firstsFrom]
      split
      · exact ih
      split
      · exact ih
      · next k _ _ =>
        refine List.nodup_cons.mpr ⟨fun hmem => ?_, ih⟩
        obtain ⟨p, hp, hpk⟩ := List.mem_map.mp hmem
        exact firstsFrom_not_seen p hp (hpk ▸ List.mem_cons_self)

theorem mem_firstsFrom {k : κ} :
    k ∈ (firstsFrom key seen i xs).map Prod.fst ↔ k ∉ seen ∧ ∃ x ∈ xs, key x = some k := by
  induction xs generalizing seen i with
  | nil => simp [firstsFrom]
  | cons x rest ih =>
      rw [firstsFrom]
      split
      · next hx => simp [ih, hx]
      · next k' hx =>
        split
        · next hk' =>
          rw [ih]
          simp only [List.mem_cons, exists_eq_or_imp, hx, Option.some.injEq]
          refine and_congr_right fun hk => ⟨.inr, fun h => h.resolve_left ?_⟩
          rintro rfl
          exact hk hk'
        · next hk' =>
          simp only [List.map_cons, List.mem_cons, ih, exists_eq_or_imp, hx, Option.some.injEq,
            not_or]
          by_cases hkk : k = k'
          · simp [hkk, hk']
          · simp [hkk, Ne.symm hkk]

/-- What stands before a first appearance has the keys before it. -/
theorem firstsFrom_split {front back : List (κ × Nat)} {k : κ} {n : Nat}
    (h : firstsFrom key seen i xs = front ++ (k, n) :: back) :
    ∃ before x after, xs = before ++ x :: after ∧ n = i + before.length ∧ key x = some k ∧
      firstsFrom key seen i before = front := by
  induction xs generalizing seen i front with
  | nil => simp [firstsFrom] at h
  | cons x rest ih =>
      rw [firstsFrom] at h
      split at h
      · next hx =>
        obtain ⟨before, y, after, rfl, rfl, hy, hfront⟩ := ih h
        refine ⟨x :: before, y, after, rfl, by simp only [List.length_cons]; omega, hy, ?_⟩
        rw [firstsFrom, hx]
        exact hfront
      · next k' hx =>
        split at h
        · next hk' =>
          obtain ⟨before, y, after, rfl, rfl, hy, hfront⟩ := ih h
          refine ⟨x :: before, y, after, rfl, by simp only [List.length_cons]; omega, hy, ?_⟩
          rw [firstsFrom, hx]
          show (if k' ∈ seen then _ else _) = _
          rw [if_pos hk']
          exact hfront
        · next hk' =>
          cases front with
          | nil =>
              obtain ⟨hhead, -⟩ := List.cons_eq_cons.mp h
              cases hhead
              exact ⟨[], x, rest, rfl, rfl, hx, rfl⟩
          | cons p front =>
              obtain ⟨rfl, htail⟩ := List.cons_eq_cons.mp h
              obtain ⟨before, y, after, rfl, rfl, hy, hfront⟩ := ih htail
              refine ⟨x :: before, y, after, rfl, by simp only [List.length_cons]; omega, hy, ?_⟩
              rw [firstsFrom, hx]
              show (if k' ∈ seen then _ else _) = _
              rw [if_neg hk', hfront]

theorem nodup_firsts : ((firsts key xs).map Prod.fst).Nodup := nodup_firstsFrom

theorem mem_firsts {k : κ} : k ∈ (firsts key xs).map Prod.fst ↔ ∃ x ∈ xs, key x = some k := by
  rw [firsts, mem_firstsFrom]
  exact and_iff_right List.not_mem_nil

/-- One more item adds its key, if it has a new one. -/
theorem firstsFrom_concat {x : α} : firstsFrom key seen i (xs ++ [x]) =
    firstsFrom key seen i xs ++
      match key x with
      | some k =>
          if k ∈ seen ∨ k ∈ (firstsFrom key seen i xs).map Prod.fst then []
          else [(k, i + xs.length)]
      | none => [] := by
  induction xs generalizing seen i with
  | nil =>
      simp only [List.nil_append, firstsFrom, List.map_nil, List.not_mem_nil, or_false,
        List.length_nil, Nat.add_zero]
      cases key x <;> rfl
  | cons y rest ih =>
      have hplace : i + 1 + rest.length = i + (y :: rest).length := by
        rw [List.length_cons]
        omega
      rw [List.cons_append, firstsFrom, firstsFrom]
      cases hy : key y with
      | none =>
          simp only [ih, hplace]
      | some k' =>
          by_cases hk' : k' ∈ seen
          · simp only [if_pos hk', ih, hplace]
          · simp only [if_neg hk', ih, hplace, List.cons_append, List.map_cons, List.mem_cons]
            cases key x with
            | none => rfl
            | some k =>
                have hseen : ∀ p : Prop, (k = k' ∨ k ∈ seen) ∨ p ↔ k ∈ seen ∨ k = k' ∨ p := by
                  intro p
                  rw [or_assoc, or_left_comm]
                simp only [hseen]

theorem firsts_concat {x : α} : firsts key (xs ++ [x]) = firsts key xs ++
    match key x with
    | some k => if k ∈ (firsts key xs).map Prod.fst then [] else [(k, xs.length)]
    | none => [] := by
  rw [firsts, firstsFrom_concat]
  cases key x with
  | none => rfl
  | some k =>
      have hseen : (k ∈ ([] : List κ) ∨ k ∈ (firstsFrom key [] 0 xs).map Prod.fst) ↔
          k ∈ (firsts key xs).map Prod.fst := or_iff_right List.not_mem_nil
      rw [← firsts, Nat.zero_add]
      exact congrArg _ (if_congr hseen rfl rfl)

theorem firsts_split {front back : List (κ × Nat)} {k : κ} {n : Nat}
    (h : firsts key xs = front ++ (k, n) :: back) :
    ∃ before x after, xs = before ++ x :: after ∧ n = before.length ∧ key x = some k ∧
      firsts key before = front := by
  obtain ⟨before, x, after, rfl, rfl, hx, hfront⟩ := firstsFrom_split h
  exact ⟨before, x, after, rfl, Nat.zero_add _, hx, hfront⟩

end Firsts
