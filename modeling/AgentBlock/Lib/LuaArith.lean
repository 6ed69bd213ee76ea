/-
AgentBlock/Lib/LuaArith.lean

Arithmetic on Lua numbers.

Two integers give an integer, which wraps; with a float beside it an integer is
rounded to a float first, and what comes out is rounded again.  Whole numbers
of at most 53 bits are exact either way (`Is`), and this is what the lemmas are
about.  A zero that comes out has no sign: no number that was computed is told
from another by it.
-/
import AgentBlock.Lib.Double
import AgentBlock.Lib.Lua

namespace LuaNumber

/-! ### Operations -/

/-- The float nearest to a number, which may overflow. -/
def ofRat (q : Rat) : LuaNumber :=
  if |double q| < 2 ^ 1024 then float (double q) else inf (q < 0)

/-- A number, as a float that is added or multiplied. -/
def toFloat : LuaNumber → LuaNumber
  | int n => ofRat n
  | negZero => float 0
  | v => v

/-- An operation on two integers, on two finite floats, and on others. -/
def arith (whole : Int → Int → Int) (exact : Rat → Rat → Rat)
    (beyond : LuaNumber → LuaNumber → LuaNumber) : LuaNumber → LuaNumber → LuaNumber
  | int a, int b => int ((whole a b).bmod (2 ^ 64))
  | a, b =>
      match a.toFloat, b.toFloat with
      | float a, float b => ofRat (exact a b)
      | a, b => beyond a b

def negInf : LuaNumber → LuaNumber
  | inf negative => inf !negative
  | v => v

/-- A sum with a float that is not finite. -/
def addInf : LuaNumber → LuaNumber → LuaNumber
  | inf a, inf b => if a = b then inf a else nan
  | inf a, float _ => inf a
  | float _, inf b => inf b
  | _, _ => nan

/-- A product with a float that is not finite. -/
def mulInf : LuaNumber → LuaNumber → LuaNumber
  | inf a, inf b => inf (a != b)
  | inf a, float q => if q = 0 then nan else inf (a != decide (q < 0))
  | float q, inf b => if q = 0 then nan else inf (b != decide (q < 0))
  | _, _ => nan

/-- `a + b`. -/
def add : LuaNumber → LuaNumber → LuaNumber := arith (· + ·) (· + ·) addInf

/-- `a - b`. -/
def sub : LuaNumber → LuaNumber → LuaNumber :=
  arith (· - ·) (· - ·) fun a b => addInf a b.negInf

/-- `a * b`. -/
def mul : LuaNumber → LuaNumber → LuaNumber := arith (· * ·) (· * ·) mulInf

/-- A quotient with a float that is not finite. -/
def divInf : LuaNumber → LuaNumber → LuaNumber
  | inf a, float q => inf (a != decide (q < 0))
  | float _, inf _ => float 0
  | _, _ => nan

/-- `a / b`, which is always a float; by `-0.0` it is of the other sign. -/
def div (a b : LuaNumber) : LuaNumber :=
  match a.toFloat, b.toFloat with
  | float p, float q =>
      if q = 0 then if p = 0 then nan else inf (decide (p < 0) != decide (b = negZero))
      else ofRat (p / q)
  | a, b => divInf a b

/-- `a < b`. -/
def lt (a b : LuaNumber) : Bool := a.le b && !a.eq b

/-- `math.floor`: an integer where it is one of 64 bits. -/
def floor : LuaNumber → LuaNumber
  | float q => if -2 ^ 63 ≤ ⌊q⌋ ∧ ⌊q⌋ < 2 ^ 63 then int ⌊q⌋ else float ⌊q⌋
  | negZero => int 0
  | v => v

/-- `math.max`. -/
def max (a b : LuaNumber) : LuaNumber := if a.lt b then b else a

/-- `v % 1 == 0`. -/
def isWhole : LuaNumber → Bool
  | int _ => true
  | float q => Int.fract q = 0
  | negZero => true
  | _ => false

/-- An integer has 64 bits. -/
def Representable : LuaNumber → Prop
  | int n => -2 ^ 63 ≤ n ∧ n < 2 ^ 63
  | _ => True

/-- The number is this whole number. -/
def Is (v : LuaNumber) (n : Int) : Prop := v = int n ∨ v = float n ∨ v = negZero ∧ n = 0

/-! ### Whole numbers -/

variable {a b v : LuaNumber} {m n k : Int} {q : Rat}

theorem is_int (n : Int) : (int n).Is n := .inl rfl

theorem is_float (n : Int) : (float n).Is n := .inr (.inl rfl)

theorem is_negZero : negZero.Is 0 := .inr (.inr ⟨rfl, rfl⟩)

theorem is_of_isWhole (h : v.isWhole = true) : ∃ n, v.Is n := by
  cases v with
  | int n => exact ⟨n, is_int n⟩
  | float q =>
      have hfract : Int.fract q = 0 := of_decide_eq_true h
      have hq : q = ⌊q⌋ := by
        have hadd := Int.floor_add_fract q
        rw [hfract, add_zero] at hadd
        exact hadd.symm
      exact ⟨⌊q⌋, .inr (.inl (congrArg float hq))⟩
  | negZero => exact ⟨0, is_negZero⟩
  | inf negative => cases h
  | nan => cases h

theorem Is.isWhole (h : v.Is n) : v.isWhole = true := by
  rcases h with rfl | rfl | ⟨rfl, rfl⟩
  · rfl
  · exact decide_eq_true (Int.fract_intCast n)
  · rfl

theorem Is.le_iff (ha : a.Is m) (hb : b.Is n) : a.le b = true ↔ m ≤ n := by
  rcases ha with rfl | rfl | ⟨rfl, rfl⟩ <;> rcases hb with rfl | rfl | ⟨rfl, rfl⟩ <;> simp [le]

theorem Is.eq_iff (ha : a.Is m) (hb : b.Is n) : a.eq b = true ↔ m = n := by
  rcases ha with rfl | rfl | ⟨rfl, rfl⟩ <;> rcases hb with rfl | rfl | ⟨rfl, rfl⟩ <;>
    simp [eq, eq_comm]

theorem Is.lt_iff (ha : a.Is m) (hb : b.Is n) : a.lt b = true ↔ m < n := by
  rw [lt, Bool.and_eq_true, Bool.not_eq_true', ha.le_iff hb, lt_iff_le_and_ne, ne_eq,
    ← Bool.not_eq_true, ha.eq_iff hb]

theorem Is.inj (hm : v.Is m) (hn : v.Is n) : m = n :=
  le_antisymm ((hm.le_iff hn).mp ((hm.le_iff hm).mpr le_rfl))
    ((hn.le_iff hm).mp ((hm.le_iff hm).mpr le_rfl))

/-- A whole number of at most 53 bits. -/
abbrev Small (n : Int) : Prop := |n| ≤ 2 ^ 53

theorem Small.lt (h : Small n) : -2 ^ 63 ≤ n ∧ n < 2 ^ 63 := by
  have := abs_le.mp h
  omega

theorem small_of_le (h : m ≤ n) (hm : 0 ≤ m) (hn : Small n) : Small m := by
  rw [Small, abs_of_nonneg hm]
  exact h.trans ((le_abs_self n).trans hn)

theorem ofRat_small (h : Small n) : ofRat n = float n := by
  rw [ofRat, double_intCast h]
  refine if_pos ?_
  have hn : |(n : Rat)| ≤ 2 ^ 53 := by exact_mod_cast h
  exact hn.trans_lt (pow_lt_pow_right₀ (by norm_num) (by norm_num))

theorem Is.toFloat (h : v.Is n) (hn : Small n) : v.toFloat = float n := by
  rcases h with rfl | rfl | ⟨rfl, rfl⟩
  · exact ofRat_small hn
  · rfl
  · exact congrArg float Int.cast_zero.symm

/-- What is exact in whole numbers is exact. -/
theorem Is.arith {whole : Int → Int → Int} {exact : Rat → Rat → Rat}
    {beyond : LuaNumber → LuaNumber → LuaNumber} (ha : a.Is m) (hb : b.Is n) (hm : Small m)
    (hn : Small n) (hk : Small (whole m n)) (hexact : exact m n = whole m n) :
    (arith whole exact beyond a b).Is (whole m n) := by
  have hfloat : ofRat (exact m n) = float (whole m n) := by rw [hexact, ofRat_small hk]
  have hbmod : (whole m n).bmod (2 ^ 64) = whole m n := by
    have := hk.lt
    refine Int.bmod_eq_of_le ?_ ?_ <;> omega
  have hfloats : (match a.toFloat, b.toFloat with
      | float a, float b => ofRat (exact a b)
      | a, b => beyond a b).Is (whole m n) := by
    rw [ha.toFloat hm, hb.toFloat hn]
    exact .inr (.inl hfloat)
  rcases ha with rfl | rfl | ⟨rfl, rfl⟩
  · rcases hb with rfl | rfl | ⟨rfl, rfl⟩
    · exact .inl (congrArg int hbmod)
    · exact hfloats
    · exact hfloats
  · exact hfloats
  · exact hfloats

theorem Is.sub (ha : a.Is m) (hb : b.Is n) (hm : Small m) (hn : Small n) (hk : Small (m - n)) :
    (a.sub b).Is (m - n) :=
  ha.arith hb hm hn hk (by push_cast; rfl)

theorem Is.add (ha : a.Is m) (hb : b.Is n) (hm : Small m) (hn : Small n) (hk : Small (m + n)) :
    (a.add b).Is (m + n) :=
  ha.arith hb hm hn hk (by push_cast; rfl)

theorem Is.floor (h : v.Is n) (hn : Small n) : v.floor = int n := by
  rcases h with rfl | rfl | ⟨rfl, rfl⟩
  · rfl
  · have := hn.lt
    show (if _ then _ else _) = _
    rw [Int.floor_intCast, if_pos this]
  · rfl

theorem Is.floor_is (h : v.Is n) : v.floor.Is n := by
  rcases h with rfl | rfl | ⟨rfl, rfl⟩
  · exact is_int n
  · show (if -2 ^ 63 ≤ ⌊(n : Rat)⌋ ∧ ⌊(n : Rat)⌋ < 2 ^ 63 then int ⌊(n : Rat)⌋
      else float ⌊(n : Rat)⌋).Is n
    rw [Int.floor_intCast]
    split
    · exact is_int n
    · exact is_float n
  · exact is_int 0

theorem Is.max (ha : a.Is m) (hb : b.Is n) : (a.max b).Is (Max.max m n) := by
  rw [LuaNumber.max]
  split
  · rename_i h
    rw [max_eq_right ((ha.lt_iff hb).mp h).le]
    exact hb
  · rename_i h
    rw [max_eq_left (not_lt.mp (mt (ha.lt_iff hb).mpr h))]
    exact ha

/-! ### Order -/

/-- Where a number other than NaN stands. -/
def extended : LuaNumber → WithBot (WithTop Rat)
  | int n => ((n : Rat) : WithTop Rat)
  | float q => (q : WithTop Rat)
  | negZero => ((0 : Rat) : WithTop Rat)
  | inf negative => if negative then ⊥ else (⊤ : WithTop Rat)
  | nan => ⊥

theorem zero_ne_top : (0 : WithBot (WithTop Rat)) ≠ ⊤ :=
  fun h => WithTop.zero_ne_top (WithBot.coe_injective h)

theorem le_iff_extended : a.le b = true ↔ a ≠ nan ∧ b ≠ nan ∧ a.extended ≤ b.extended := by
  cases a <;> cases b <;> simp [le, extended] <;> split <;> simp_all [zero_ne_top]

theorem le_trans' {a b c : LuaNumber} (hab : a.le b = true) (hbc : b.le c = true) :
    a.le c = true := by
  obtain ⟨ha, -, hab⟩ := le_iff_extended.1 hab
  obtain ⟨-, hc, hbc⟩ := le_iff_extended.1 hbc
  exact le_iff_extended.2 ⟨ha, hc, hab.trans hbc⟩

theorem eq_iff_extended : a.eq b = true ↔ a ≠ nan ∧ b ≠ nan ∧ a.extended = b.extended := by
  cases a <;> cases b <;> simp [eq, extended] <;> split <;>
    simp_all [zero_ne_top, zero_ne_top.symm]

theorem lt_iff_extended : a.lt b = true ↔ a ≠ nan ∧ b ≠ nan ∧ a.extended < b.extended := by
  rw [lt, Bool.and_eq_true, Bool.not_eq_true', le_iff_extended, ← Bool.not_eq_true,
    eq_iff_extended, lt_iff_le_and_ne]
  tauto

theorem le_of_lt' (h : a.lt b = true) : a.le b = true := by
  obtain ⟨ha, hb, hlt⟩ := lt_iff_extended.1 h
  exact le_iff_extended.2 ⟨ha, hb, hlt.le⟩

/-- Of two numbers one is not larger. -/
theorem le_of_not_lt' (ha : a ≠ nan) (hb : b ≠ nan) (h : a.lt b = false) : b.le a = true := by
  refine le_iff_extended.2 ⟨hb, ha, not_lt.mp fun hlt => ?_⟩
  rw [lt_iff_extended.2 ⟨ha, hb, hlt⟩] at h
  cases h

theorem not_lt_of_le' (h : a.le b = true) : b.lt a = false := by
  refine Bool.eq_false_iff.mpr fun hlt => ?_
  exact absurd (le_iff_extended.1 h).2.2 (not_le.mpr (lt_iff_extended.1 hlt).2.2)

theorem lt_of_le_of_lt' {a b c : LuaNumber} (hab : a.le b = true) (hbc : b.lt c = true) :
    a.lt c = true := by
  obtain ⟨ha, -, hab⟩ := le_iff_extended.1 hab
  obtain ⟨-, hc, hbc⟩ := lt_iff_extended.1 hbc
  exact lt_iff_extended.2 ⟨ha, hc, hab.trans_lt hbc⟩

/-- What is at most one of two numbers is at most the larger. -/
theorem le_max' {a b c : LuaNumber} (ha : a ≠ nan) (h : c.le b = true) :
    c.le (a.max b) = true := by
  rw [LuaNumber.max]
  split
  · exact h
  · rename_i hlt
    have hb : b ≠ nan := (le_iff_extended.1 h).2.1
    exact le_trans' h (le_of_not_lt' ha hb (Bool.eq_false_iff.mpr hlt))

/-! ### What is too large -/

theorem ofRat_le_zero (h : q ≤ 0) : (ofRat q).le (int 0) = true := by
  have hdouble := double_nonpos h
  rw [ofRat]
  split
  · simpa [le] using hdouble
  · rename_i hlarge
    have hq : q ≠ 0 := by
      rintro rfl
      rw [double_zero] at hlarge
      exact hlarge (by norm_num)
    simpa [le] using lt_of_le_of_ne h hq

theorem le_ofRat (h : (k : Rat) ≤ q) (hk : 0 ≤ k) (hsmall : Small k) :
    (int k).le (ofRat q) = true := by
  have hk' : (0 : Rat) ≤ k := by exact_mod_cast hk
  have hdouble : (k : Rat) ≤ double q := by
    rw [← double_intCast hsmall]
    exact double_le_double hk' h
  rw [ofRat]
  split
  · simpa [le] using hdouble
  · simpa [le] using hk'.trans h

theorem ofRat_ne_int (q : Rat) (n : Int) : ofRat q ≠ int n := by
  rw [ofRat]
  split <;> exact nofun

theorem ofRat_ne_negZero (q : Rat) : ofRat q ≠ negZero := by
  rw [ofRat]
  split <;> exact nofun

theorem toFloat_ne_int (v : LuaNumber) (n : Int) : v.toFloat ≠ int n := by
  cases v with
  | int m => exact ofRat_ne_int m n
  | _ =>
      intro h
      cases h

/-- A number that is at least a small one, as a float. -/
theorem le_toFloat (h : (int k).le v = true) (hk : 0 ≤ k) (hsmall : Small k) :
    (int k).le v.toFloat = true := by
  cases v with
  | int n => exact le_ofRat (by simpa [le] using h) hk hsmall
  | negZero =>
      have hk0 : k ≤ 0 := of_decide_eq_true h
      exact decide_eq_true (by exact_mod_cast hk0)
  | _ => exact h

theorem Is.le_sub (ha : a.Is m) (hrep : a.Representable) (hn : 0 ≤ n) (hsmall : Small n)
    (h : k ≤ m - n) (hk : 0 ≤ k) (hksmall : Small k) : (int k).le (a.sub (int n)) = true := by
  have hfloat : (int k).le (match float (m : Rat), (int n).toFloat with
      | float a, float b => ofRat (a - b)
      | a, b => addInf a b.negInf) = true := by
    rw [(is_int n).toFloat hsmall]
    exact le_ofRat (by exact_mod_cast h) hk hksmall
  rcases ha with rfl | rfl | ⟨rfl, rfl⟩
  · have hbmod : (m - n).bmod (2 ^ 64) = m - n := by
      have := hrep.2
      refine Int.bmod_eq_of_le ?_ ?_ <;> omega
    show (int k).le (int ((m - n).bmod (2 ^ 64))) = true
    rw [hbmod]
    exact decide_eq_true h
  · exact hfloat
  · exact hfloat

theorem Is.sub_le_zero (ha : a.Is m) (hm : 0 ≤ m) (hsmall : Small m) (h : (int m).le b = true)
    (hrep : b.Representable) : (a.sub b).le (int 0) = true := by
  have hfloat : (match float (m : Rat), b.toFloat with
      | float a, float b => ofRat (a - b)
      | a, b => addInf a b.negInf).le (int 0) = true := by
    have hb := le_toFloat h hm hsmall
    cases hv : b.toFloat with
    | int n => exact absurd hv (toFloat_ne_int b n)
    | float q =>
        rw [hv] at hb
        exact ofRat_le_zero (sub_nonpos.mpr (of_decide_eq_true hb))
    | negZero => cases b <;> first | cases hv | exact absurd hv (ofRat_ne_negZero _)
    | inf negative =>
        rw [hv] at hb
        cases negative
        · rfl
        · cases hb
    | nan =>
        rw [hv] at hb
        cases hb
  rcases ha with rfl | rfl | ⟨rfl, rfl⟩
  · cases b with
    | int n =>
        have hmn : m ≤ n := of_decide_eq_true h
        have hbmod : (m - n).bmod (2 ^ 64) = m - n := by
          have := hrep.2
          refine Int.bmod_eq_of_le ?_ ?_ <;> omega
        show (int ((m - n).bmod (2 ^ 64))).le (int 0) = true
        rw [hbmod]
        exact decide_eq_true (by omega)
    | _ =>
        show (match (int m).toFloat, LuaNumber.toFloat _ with
          | float a, float b => ofRat (a - b)
          | a, b => addInf a b.negInf).le (int 0) = true
        rw [(is_int m).toFloat hsmall]
        exact hfloat
  · exact hfloat
  · exact hfloat

theorem floor_le_zero (h : v.le (int 0) = true) : v.floor.le (int 0) = true := by
  cases v with
  | float q =>
      have hq : ⌊q⌋ ≤ 0 := Int.floor_nonpos (by simpa [le] using h)
      rw [floor]
      split
      · exact decide_eq_true hq
      · exact decide_eq_true (by exact_mod_cast hq)
  | _ => exact h

theorem representable_ofRat (q : Rat) : (ofRat q).Representable := by
  rw [ofRat]
  split <;> trivial

theorem representable_addInf (a b : LuaNumber) : (addInf a b).Representable := by
  cases a <;> cases b <;> try trivial
  rw [addInf]
  split <;> trivial

/-- A difference of integers has wrapped. -/
theorem representable_sub (a b : LuaNumber) : (a.sub b).Representable := by
  have hfloat : ∀ a b : LuaNumber, (match a.toFloat, b.toFloat with
      | float a, float b => ofRat (a - b)
      | a, b => addInf a b.negInf).Representable := by
    intro a b
    split
    · exact representable_ofRat _
    · exact representable_addInf _ _
  cases a with
  | int m =>
      cases b with
      | int n =>
          have hlo := Int.le_bmod (x := m - n) (m := 2 ^ 64) (by norm_num)
          have hhi := Int.bmod_lt (x := m - n) (m := 2 ^ 64) (by norm_num)
          show -2 ^ 63 ≤ (m - n).bmod (2 ^ 64) ∧ (m - n).bmod (2 ^ 64) < 2 ^ 63
          omega
      | _ => exact hfloat (int m) _
  | float p => exact hfloat (float p) b
  | negZero => exact hfloat negZero b
  | inf negative => exact hfloat (inf negative) b
  | nan => exact hfloat nan b

end LuaNumber
