/-
AgentBlock/Lib/Double.lean

Rounding a rational to a double: the nearest multiple of the unit in the last
of its 53 places, and of two that are equally near the even one.

What overflows is not looked at here.  Rounding keeps the order of what is not
negative (`double_le_double`), and whole numbers up to `2 ^ 53` are their own
double (`double_intCast`).
-/
import Mathlib.Data.Int.Log
import Mathlib.Data.Rat.Floor
import Mathlib.Tactic.FieldSimp
import Mathlib.Tactic.Linarith
import Mathlib.Tactic.Positivity

section Double

/-- The integer nearest to a number, and the even one of two. -/
def nearest (q : Rat) : Int :=
  if 2 * Int.fract q < 1 ∨ (2 * Int.fract q = 1 ∧ ⌊q⌋ % 2 = 0) then ⌊q⌋ else ⌊q⌋ + 1

/-- The exponent of the last of the 53 places of a number. -/
def place (q : Rat) : Int := max (Int.log 2 |q| - 52) (-1074)

/-- The unit in the last place of a number. -/
def ulp (q : Rat) : Rat := 2 ^ place q

/-- The double nearest to a number. -/
def double (q : Rat) : Rat := nearest (q / ulp q) * ulp q

variable {p q : Rat}

/-! ### The nearest integer -/

theorem floor_le_nearest (q : Rat) : ⌊q⌋ ≤ nearest q := by
  rw [nearest]
  split <;> omega

theorem nearest_le_floor (q : Rat) : nearest q ≤ ⌊q⌋ + 1 := by
  rw [nearest]
  split <;> omega

theorem nearest_intCast (n : Int) : nearest n = n := by
  rw [nearest, Int.fract_intCast, Int.floor_intCast]
  exact if_pos (.inl (by norm_num))

theorem nearest_le_nearest (h : p ≤ q) : nearest p ≤ nearest q := by
  rcases (Int.floor_le_floor h).lt_or_eq with hlt | heq
  · calc nearest p ≤ ⌊p⌋ + 1 := nearest_le_floor p
      _ ≤ ⌊q⌋ := hlt
      _ ≤ nearest q := floor_le_nearest q
  · have hfract : Int.fract p ≤ Int.fract q := by
      rw [Int.fract, Int.fract, heq]
      linarith
    -- where the larger goes down, so does the smaller
    rw [nearest, nearest, heq]
    split
    · split <;> omega
    · rename_i hp
      have hq : ¬(2 * Int.fract q < 1 ∨ (2 * Int.fract q = 1 ∧ ⌊q⌋ % 2 = 0)) := by
        rintro (hq | ⟨hq, heven⟩)
        · exact hp (.inl (by linarith))
        · rcases (show 2 * Int.fract p ≤ 1 by linarith).lt_or_eq with hlt | hp'
          · exact hp (.inl hlt)
          · exact hp (.inr ⟨hp', heven⟩)
      rw [if_neg hq]

/-! ### The grid of a number -/

theorem ulp_pos (q : Rat) : 0 < ulp q := zpow_pos two_pos _

theorem double_le_grid {m : Int} (h : q ≤ m * ulp q) : double q ≤ m * ulp q := by
  have hq : q / ulp q ≤ m := (div_le_iff₀ (ulp_pos q)).mpr h
  have hm : nearest (q / ulp q) ≤ m := by
    rw [← nearest_intCast m]
    exact nearest_le_nearest hq
  rw [double]
  exact mul_le_mul_of_nonneg_right (Int.cast_le.mpr hm) (ulp_pos q).le

theorem grid_le_double {m : Int} (h : m * ulp q ≤ q) : m * ulp q ≤ double q := by
  have hq : (m : Rat) ≤ q / ulp q := (le_div_iff₀ (ulp_pos q)).mpr h
  have hm : m ≤ nearest (q / ulp q) := by
    rw [← nearest_intCast m]
    exact nearest_le_nearest hq
  rw [double]
  exact mul_le_mul_of_nonneg_right (Int.cast_le.mpr hm) (ulp_pos q).le

/-- What is on its own grid is a double. -/
theorem double_of_grid {m : Int} (h : q = m * ulp q) : double q = q :=
  le_antisymm ((double_le_grid h.le).trans h.ge) (h.le.trans (grid_le_double h.ge))

theorem double_nonneg (h : 0 ≤ q) : 0 ≤ double q := by
  have hgrid : ((0 : Int) : Rat) * ulp q ≤ q := by simpa using h
  simpa using grid_le_double hgrid

theorem double_nonpos (h : q ≤ 0) : double q ≤ 0 := by
  have hgrid : q ≤ ((0 : Int) : Rat) * ulp q := by simpa using h
  simpa using double_le_grid hgrid

theorem double_zero : double 0 = 0 := double_of_grid (m := 0) (by simp)

/-! ### Order -/

theorem place_le_place (hp : 0 < p) (h : p ≤ q) : place p ≤ place q := by
  rw [place, place, abs_of_pos hp, abs_of_pos (hp.trans_le h)]
  have hlog := @Int.log_mono_right Rat _ _ _ _ 2 p q hp h
  omega

/-- A power of two on the grid of a number. -/
theorem pow_on_grid {e : Int} (h : place q ≤ e) : ∃ m : Int, (2 : Rat) ^ e = m * ulp q := by
  refine ⟨2 ^ (e - place q).toNat, ?_⟩
  rw [ulp]
  push_cast
  rw [← zpow_natCast, ← zpow_add₀ (by norm_num), Int.toNat_of_nonneg (by omega)]
  congr 1
  omega

theorem double_le_pow {e : Int} (he : place q ≤ e) (h : q ≤ 2 ^ e) : double q ≤ 2 ^ e := by
  obtain ⟨m, hm⟩ := pow_on_grid he
  rw [hm] at h ⊢
  exact double_le_grid h

theorem pow_le_double {e : Int} (he : place q ≤ e) (h : 2 ^ e ≤ q) : 2 ^ e ≤ double q := by
  obtain ⟨m, hm⟩ := pow_on_grid he
  rw [hm] at h ⊢
  exact grid_le_double h

/-- **Rounding keeps the order.**  Where the two are on different grids, a
power of two is between them that is on both. -/
theorem double_le_double (hp : 0 ≤ p) (h : p ≤ q) : double p ≤ double q := by
  rcases hp.eq_or_lt with rfl | hp
  · rw [double_zero]
    exact double_nonneg h
  have hq := hp.trans_le h
  rcases (place_le_place hp h).lt_or_eq with hlt | heq
  · have hplace : place q = Int.log 2 q - 52 := by
      rw [place, abs_of_pos hq]
      rw [place, place, abs_of_pos hp, abs_of_pos hq] at hlt
      omega
    have hlog : Int.log 2 p < Int.log 2 q := by
      rw [hplace, place, abs_of_pos hp] at hlt
      omega
    have hppow : p ≤ 2 ^ Int.log 2 q := ((Int.lt_zpow_iff_log_lt one_lt_two hp).mpr hlog).le
    have hqpow : 2 ^ Int.log 2 q ≤ q := Int.zpow_log_le_self one_lt_two hq
    calc double p ≤ 2 ^ Int.log 2 q := double_le_pow (by omega) hppow
      _ ≤ double q := pow_le_double (by omega) hqpow
  · have hulp : ulp p = ulp q := by rw [ulp, ulp, heq]
    rw [double, double, hulp]
    refine mul_le_mul_of_nonneg_right (Int.cast_le.mpr (nearest_le_nearest ?_)) (ulp_pos q).le
    exact div_le_div_of_nonneg_right h (ulp_pos q).le

/-! ### Whole numbers -/

/-- The place of a number between two powers of two. -/
theorem place_eq {e : Int} (he : -1022 ≤ e) (hlo : 2 ^ e ≤ q) (hhi : q < 2 ^ (e + 1)) :
    place q = e - 52 := by
  have hq : 0 < q := (zpow_pos two_pos e).trans_le hlo
  have hle : e ≤ Int.log 2 q := (Int.zpow_le_iff_le_log one_lt_two hq).mp hlo
  have hlt : Int.log 2 q < e + 1 := (Int.lt_zpow_iff_log_lt one_lt_two hq).mp hhi
  rw [place, abs_of_pos hq]
  omega

/-- **A whole number of at most 53 places is its own double.** -/
theorem double_intCast {n : Int} (h : |n| ≤ 2 ^ 53) : double n = n := by
  rcases h.lt_or_eq with hlt | heq
  · have hplace : place n ≤ 0 := by
      rcases eq_or_ne n 0 with rfl | hn
      · simp [place]
      · have hpos : (0 : Rat) < |(n : Rat)| := abs_pos.mpr (Int.cast_ne_zero.mpr hn)
        have hlog : Int.log 2 |(n : Rat)| < 53 := by
          refine (Int.lt_zpow_iff_log_lt one_lt_two hpos).mp ?_
          exact_mod_cast hlt
        rw [place]
        omega
    -- the units divide one
    refine double_of_grid (m := n * 2 ^ (-place n).toNat) ?_
    have hone : (2 : Rat) ^ (-place n).toNat * ulp n = 1 := by
      rw [ulp, ← zpow_natCast, ← zpow_add₀ (by norm_num), Int.toNat_of_nonneg (by omega),
        neg_add_cancel, zpow_zero]
    push_cast
    rw [mul_assoc, hone, mul_one]
  · -- the units are twos
    have hplace : place ((2 : Rat) ^ 53) = 1 := @place_eq _ 53 (by norm_num) (by norm_num) (by norm_num)
    have hulp : ulp (n : Rat) = 2 := by
      have habs : |(n : Rat)| = 2 ^ 53 := by exact_mod_cast congrArg (Int.cast : Int → Rat) heq
      have hn : place (n : Rat) = 1 := by
        rw [← hplace, place, place, habs, abs_of_pos (by positivity)]
      rw [ulp, hn, zpow_one]
    rcases eq_or_eq_neg_of_abs_eq heq with rfl | rfl
    · refine double_of_grid (m := 2 ^ 52) ?_
      rw [hulp]
      norm_num
    · refine double_of_grid (m := -2 ^ 52) ?_
      rw [hulp]
      norm_num

end Double
