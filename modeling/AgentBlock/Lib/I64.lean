/-
AgentBlock/Lib/I64.lean

Signed 64-bit integers with saturating arithmetic.

An `I64` is an integer together with the proof that it is in range, and the
saturating operations are the integer ones followed by `clamp`, so every fact
about them is a fact of linear arithmetic about `val`.
-/
import Mathlib.Order.Lattice

/-- A signed 64-bit integer. -/
structure I64 where
  val : Int
  lo : -9223372036854775808 ≤ val
  hi : val ≤ 9223372036854775807
  deriving DecidableEq

namespace I64

/-- The nearest 64-bit integer. -/
def clamp (n : Int) : I64 :=
  if hlo : n < -9223372036854775808 then ⟨-9223372036854775808, by omega, by omega⟩
  else if hhi : 9223372036854775807 < n then ⟨9223372036854775807, by omega, by omega⟩
  else ⟨n, by omega, by omega⟩

@[ext] theorem ext {a b : I64} (h : a.val = b.val) : a = b := by
  cases a; cases b; cases h; rfl

theorem val_clamp (n : Int) :
    (n < -9223372036854775808 ∧ (clamp n).val = -9223372036854775808) ∨
      (9223372036854775807 < n ∧ (clamp n).val = 9223372036854775807) ∨
      (-9223372036854775808 ≤ n ∧ n ≤ 9223372036854775807 ∧ (clamp n).val = n) := by
  unfold clamp
  split
  · exact Or.inl ⟨‹_›, rfl⟩
  · split
    · exact Or.inr (Or.inl ⟨‹_›, rfl⟩)
    · exact Or.inr (Or.inr ⟨by omega, by omega, rfl⟩)

theorem val_clamp_of_mem {n : Int} (hlo : -9223372036854775808 ≤ n)
    (hhi : n ≤ 9223372036854775807) : (clamp n).val = n := by
  have := val_clamp n
  omega

@[simp] theorem clamp_val (a : I64) : clamp a.val = a :=
  ext (val_clamp_of_mem a.lo a.hi)

/-! ### Order -/

instance : LE I64 := ⟨fun a b => a.val ≤ b.val⟩
instance : LT I64 := ⟨fun a b => a.val < b.val⟩
instance (a b : I64) : Decidable (a ≤ b) := inferInstanceAs (Decidable (a.val ≤ b.val))
instance (a b : I64) : Decidable (a < b) := inferInstanceAs (Decidable (a.val < b.val))

theorem le_def {a b : I64} : a ≤ b ↔ a.val ≤ b.val := Iff.rfl
theorem lt_def {a b : I64} : a < b ↔ a.val < b.val := Iff.rfl

instance {n : Nat} : OfNat I64 n := ⟨clamp n⟩
instance : Neg I64 := ⟨fun a => clamp (-a.val)⟩
instance : Inhabited I64 := ⟨0⟩

@[simp] theorem val_zero : (0 : I64).val = 0 := rfl

theorem lo_le_lo : (-9223372036854775808 : Int) ≤ -9223372036854775808 := Int.le_refl _

theorem lo_le_hi : (-9223372036854775808 : Int) ≤ 9223372036854775807 := by decide

theorem hi_le_hi : (9223372036854775807 : Int) ≤ 9223372036854775807 := Int.le_refl _

/-- The greatest 64-bit integer. -/
def maxValue : I64 := ⟨9223372036854775807, lo_le_hi, hi_le_hi⟩

@[simp] theorem val_maxValue : maxValue.val = 9223372036854775807 := rfl

/-- The same word read without its sign. -/
def asU64 (a : I64) : Nat := (a.val % 18446744073709551616).toNat

theorem asU64_of_nonneg {a : I64} (h : 0 ≤ a.val) : (a.asU64 : Int) = a.val := by
  have := a.hi
  unfold asU64
  omega

/-! ### Saturating arithmetic -/

/-- Addition that stops at the ends of the range. -/
def saturatingAdd (a b : I64) : I64 := clamp (a.val + b.val)

/-- Subtraction that stops at the ends of the range. -/
def saturatingSub (a b : I64) : I64 := clamp (a.val - b.val)

/-- The greater of the two. -/
protected def max (a b : I64) : I64 := if a ≤ b then b else a

@[simp] theorem val_max (a b : I64) : (I64.max a b).val = max a.val b.val := by
  unfold I64.max
  split <;> rename_i h <;> rw [le_def] at h <;> omega

/-- What a sum of two non-negative numbers is: exact, or the greatest. -/
theorem val_saturatingAdd {a b : I64} (ha : 0 ≤ a.val) (hb : 0 ≤ b.val) :
    (a.saturatingAdd b).val = min (a.val + b.val) 9223372036854775807 := by
  have := val_clamp (a.val + b.val)
  unfold saturatingAdd
  omega

/-- A difference of non-negative numbers never leaves the range. -/
theorem val_saturatingSub {a b : I64} (ha : 0 ≤ a.val) (hb : 0 ≤ b.val) :
    (a.saturatingSub b).val = a.val - b.val := by
  have := a.hi
  have := b.hi
  exact val_clamp_of_mem (by omega) (by omega)

end I64
