/-
AgentBlock/Lib/Quota.lean

A quota that is granted, reserved from and spent, over any ordered group.

A ledger is a list of moves.  Its balance is a fold that starts with the first
grant, stops at zero when more is taken than is there, and stops at `cap` when
more is granted than fits.  What was spent without asking may be forgiven by
the floor; what was reserved never is, as long as each reservation was covered
by the balance it was decided against.

Main results:

* `balance_eq_none` — there is a balance exactly where something was granted;
* `Covered.sound` — the balance and everything reserved since the first grant
  are together at most what was granted;
* `balance_mono` — nothing but a grant raises the balance.
-/
import Mathlib.Algebra.Order.Group.Defs
import Mathlib.Algebra.Order.Group.Unbundled.Basic
import Mathlib.Algebra.BigOperators.Group.List.Basic
import Mathlib.Algebra.Order.BigOperators.Group.List
import Mathlib.Data.List.Induction
import Mathlib.Data.List.TakeWhile
import Mathlib.Tactic.Abel
import Mathlib.Tactic.GCongr

namespace Quota

/-- A move of a ledger. -/
inductive Move (G : Type*) where
  | grant (a : G)
  | reserve (a : G)
  | spend (a : G)
  | refuse (a : G)

namespace Move

variable {G : Type*}

/-- The amount a move names. -/
def amount : Move G → G
  | grant a | reserve a | spend a | refuse a => a

/-- Whether a move is a grant. -/
def isGrant : Move G → Bool
  | grant _ => true
  | _ => false

variable [Zero G]

/-- What a move adds to what was granted. -/
def granted : Move G → G
  | grant a => a
  | _ => 0

/-- What a move adds to what was reserved. -/
def reserved : Move G → G
  | reserve a => a
  | _ => 0

end Move

variable {G : Type*} [AddCommGroup G]

/-! ### The balance -/

/-- The moves from the first grant on. -/
def sinceGrant (ms : List (Move G)) : List (Move G) := ms.dropWhile fun m => !m.isGrant

/-- Everything that was granted. -/
def granted (ms : List (Move G)) : G := (ms.map Move.granted).sum

/-- Everything that was reserved since the first grant. -/
def reserved (ms : List (Move G)) : G := ((sinceGrant ms).map Move.reserved).sum

theorem granted_concat {ms : List (Move G)} {m : Move G} :
    granted (ms ++ [m]) = granted ms + m.granted := by
  simp [granted]

variable [LinearOrder G]

/-- One move's effect. -/
def step (cap : G) : Option G → Move G → Option G
  | b, .grant a => some (min (b.getD 0 + a) cap)
  | b, .reserve a | b, .spend a => b.map fun b => max (b - a) 0
  | b, .refuse _ => b

/-- The balance of a ledger. -/
def balance (cap : G) (ms : List (Move G)) : Option G := ms.foldl (step cap) none

variable {cap : G} {ms more : List (Move G)} {m : Move G} {b : G}

@[simp] theorem balance_nil : balance cap ([] : List (Move G)) = none := rfl

theorem balance_concat : balance cap (ms ++ [m]) = step cap (balance cap ms) m := by
  simp [balance]

/-- **There is a balance exactly where something was granted.** -/
theorem balance_eq_none : balance cap ms = none ↔ ∀ m ∈ ms, m.isGrant = false := by
  induction ms using List.reverseRecOn with
  | nil => simp
  | append_singleton ms m ih =>
      rw [balance_concat]
      simp only [List.mem_append, List.mem_singleton, or_imp, forall_and, forall_eq, ← ih]
      cases m <;> simp [step, Move.isGrant]

theorem sinceGrant_of_none (h : balance cap ms = none) : sinceGrant ms = [] := by
  refine List.dropWhile_eq_nil_iff.mpr fun m hm => ?_
  simp [balance_eq_none.mp h m hm]

theorem sinceGrant_concat_of_none (h : balance cap ms = none) :
    sinceGrant (ms ++ [m]) = if m.isGrant then [m] else [] := by
  have hnil := sinceGrant_of_none h
  unfold sinceGrant at hnil ⊢
  cases hm : m.isGrant <;> simp [List.dropWhile_append, hnil, hm]

theorem sinceGrant_concat_of_some (h : balance cap ms = some b) :
    sinceGrant (ms ++ [m]) = sinceGrant ms ++ [m] := by
  have hne : sinceGrant ms ≠ [] := by
    intro hnil
    have hnone : balance cap ms = none := by
      refine balance_eq_none.mpr fun m hm => ?_
      simpa using List.dropWhile_eq_nil_iff.mp hnil m hm
    rw [h] at hnone
    cases hnone
  unfold sinceGrant at hne ⊢
  simp [List.dropWhile_append, hne]

/-- A reservation before the first grant does not count. -/
theorem reserved_concat_of_none (h : balance cap ms = none) : reserved (ms ++ [m]) = 0 := by
  rw [reserved, sinceGrant_concat_of_none h]
  cases m <;> simp [Move.isGrant, Move.reserved]

theorem reserved_concat_of_some (h : balance cap ms = some b) :
    reserved (ms ++ [m]) = reserved ms + m.reserved := by
  simp [reserved, sinceGrant_concat_of_some h]

/-! ### Covered ledgers -/

/-- A ledger in which no amount is negative and every reservation was covered
by the balance it was decided against. -/
inductive Covered (cap : G) : List (Move G) → Prop
  | nil : Covered cap []
  | grant {ms : List (Move G)} {a : G} :
      Covered cap ms → 0 ≤ a → Covered cap (ms ++ [.grant a])
  | reserve {ms : List (Move G)} {a : G} : Covered cap ms → 0 ≤ a →
      (∀ b ∈ balance cap ms, a ≤ b) → Covered cap (ms ++ [.reserve a])
  | spend {ms : List (Move G)} {a : G} :
      Covered cap ms → 0 ≤ a → Covered cap (ms ++ [.spend a])
  | refuse {ms : List (Move G)} {a : G} :
      Covered cap ms → 0 ≤ a → Covered cap (ms ++ [.refuse a])

theorem Covered.amounts (h : Covered cap ms) : ∀ m ∈ ms, 0 ≤ m.amount := by
  induction h with
  | nil => simp
  | grant _ ha ih | reserve _ ha _ ih | spend _ ha ih | refuse _ ha ih =>
      intro m hm
      rcases List.mem_append.mp hm with hm | hm
      · exact ih m hm
      · obtain rfl := List.mem_singleton.mp hm
        exact ha

variable [IsOrderedAddMonoid G]

/-- A balance is never negative. -/
theorem Covered.balance_nonneg (hcap : 0 ≤ cap) (h : Covered cap ms) :
    ∀ b ∈ balance cap ms, 0 ≤ b := by
  induction h with
  | nil => simp
  | @grant ms a _ ha ih =>
      rw [balance_concat]
      rintro _ ⟨⟩
      refine le_min (add_nonneg ?_ ha) hcap
      cases hb : balance cap ms with
      | none => exact le_rfl
      | some b => exact ih b hb
  | reserve | spend =>
      rw [balance_concat]
      intro b hb
      obtain ⟨c, -, rfl⟩ := Option.map_eq_some_iff.mp hb
      exact le_max_right _ _
  | refuse _ _ ih => exact fun b hb => ih b (by rwa [balance_concat] at hb)

theorem Covered.granted_nonneg (h : Covered cap ms) : 0 ≤ granted ms := by
  refine List.sum_nonneg fun a ha => ?_
  obtain ⟨m, hm, rfl⟩ := List.mem_map.mp ha
  cases m with
  | grant a => exact h.amounts _ hm
  | reserve | spend | refuse => exact le_rfl

/-- A move that is no grant keeps the bound, if it takes from the balance at
least what it reserves. -/
theorem sound_move (hb : balance cap ms = some b) (hg : m.granted = 0)
    (ih : ∀ b ∈ balance cap ms, b + reserved ms ≤ granted ms) {b' : G}
    (hstep : b' + m.reserved ≤ b) :
    b' + reserved (ms ++ [m]) ≤ granted (ms ++ [m]) := by
  rw [reserved_concat_of_some hb, granted_concat, hg, add_zero]
  calc b' + (reserved ms + m.reserved)
      = b' + m.reserved + reserved ms := by abel
    _ ≤ b + reserved ms := by gcongr
    _ ≤ granted ms := ih b hb

/-- **What was granted bounds the balance and everything reserved from it.** -/
theorem Covered.sound (hcap : 0 ≤ cap) (h : Covered cap ms) :
    ∀ b ∈ balance cap ms, b + reserved ms ≤ granted ms := by
  induction h with
  | nil => simp
  | @grant ms a hms ha ih =>
      rw [balance_concat, granted_concat]
      rintro _ ⟨⟩
      cases hb : balance cap ms with
      | none =>
          rw [reserved_concat_of_none hb]
          simpa [Move.granted] using
            (min_le_left a cap).trans (le_add_of_nonneg_left hms.granted_nonneg)
      | some b =>
          rw [reserved_concat_of_some hb]
          simp only [Move.granted, Move.reserved, Option.getD_some, add_zero]
          calc min (b + a) cap + reserved ms
              ≤ b + a + reserved ms := by gcongr; exact min_le_left _ _
            _ = b + reserved ms + a := by abel
            _ ≤ granted ms + a := by gcongr; exact ih b hb
  | @reserve ms a _ ha hcov ih =>
      intro b' hb'
      rw [balance_concat] at hb'
      obtain ⟨b, hb, rfl⟩ := Option.map_eq_some_iff.mp hb'
      -- the balance falls by exactly what the reservation adds
      refine sound_move hb rfl ih ?_
      rw [max_eq_left (sub_nonneg.mpr (hcov b hb))]
      simp [Move.reserved]
  | @spend ms a hms ha ih =>
      intro b' hb'
      rw [balance_concat] at hb'
      obtain ⟨b, hb, rfl⟩ := Option.map_eq_some_iff.mp hb'
      refine sound_move hb rfl ih ?_
      simpa [Move.reserved, ha] using hms.balance_nonneg hcap b hb
  | @refuse ms a _ ha ih =>
      intro b hb
      rw [balance_concat] at hb
      exact sound_move hb rfl ih (by simp [Move.reserved])

/-- One move that is no grant does not raise the balance. -/
theorem step_le (hb : 0 ≤ b) (hm : 0 ≤ m.amount) (hg : m.isGrant = false) :
    ∃ b', step cap (some b) m = some b' ∧ 0 ≤ b' ∧ b' ≤ b := by
  cases m with
  | grant => cases hg
  | reserve a | spend a =>
      exact ⟨_, rfl, le_max_right _ _, max_le (sub_le_self b hm) hb⟩
  | refuse => exact ⟨b, rfl, hb, le_rfl⟩

/-- **Nothing but a grant raises the balance.** -/
theorem balance_mono (hms : balance cap ms = some b) (hb : 0 ≤ b)
    (hmore : ∀ m ∈ more, 0 ≤ m.amount ∧ m.isGrant = false) :
    ∃ b', balance cap (ms ++ more) = some b' ∧ 0 ≤ b' ∧ b' ≤ b := by
  induction more using List.reverseRecOn with
  | nil => exact ⟨b, by simpa using hms, hb, le_rfl⟩
  | append_singleton more m ih =>
      obtain ⟨c, hc, hc₀, hcb⟩ := ih fun m hm => hmore m (List.mem_append_left _ hm)
      obtain ⟨hm₀, hmg⟩ := hmore m (by simp)
      obtain ⟨b', hb', h₀, hle⟩ := @step_le G _ _ cap m c _ hc₀ hm₀ hmg
      exact ⟨b', by rw [← List.append_assoc, balance_concat, hc, hb'], h₀, hle.trans hcb⟩

end Quota
