/-
AgentBlock/Lib/Quoted.lean

Strings as Lua's `%q` writes them, and the characters of a finite number.

A quote, a backslash and a newline are written behind a backslash, and a control
character as its number, in three digits where a digit follows.

Main result:

* `quotedChars_inj` — a quoted string ends where it is seen to, so two that begin
  one text are one.
-/
import Mathlib.Data.List.TakeWhile
import Mathlib.Data.String.Basic
import Mathlib.Tactic.Common

namespace Quoted

/-- Characters as `%q` writes them between its quotes. -/
def quotedChars : List Char → List Char
  | [] => []
  | c :: rest =>
      (if c = '"' ∨ c = '\\' ∨ c = '\n' then ['\\', c]
        else if c.toNat < 32 ∨ c.toNat = 127 then
          let digits := Nat.toDigits 10 c.toNat
          -- three digits where a digit follows
          let filled := if rest.head?.any Char.isDigit then
            List.replicate (3 - digits.length) '0' ++ digits else digits
          '\\' :: filled
        else [c]) ++ quotedChars rest

/-- `%q` of a string. -/
def quoted (s : String) : String := String.ofList ('"' :: quotedChars s.toList ++ ['"'])

/-- The number of a control character, filled with zeros to three digits or not. -/
def filled (pad : Bool) (n : ℕ) : List Char :=
  if pad then List.replicate (3 - (Nat.toDigits 10 n).length) '0' ++ Nat.toDigits 10 n
  else Nat.toDigits 10 n

def IsControl (c : Char) : Prop := c.toNat < 32 ∨ c.toNat = 127

instance (c : Char) : Decidable (IsControl c) := inferInstanceAs (Decidable (_ ∨ _))

def IsMarked (c : Char) : Prop := c = '"' ∨ c = '\\' ∨ c = '\n'

instance (c : Char) : Decidable (IsMarked c) := inferInstanceAs (Decidable (_ ∨ _))

theorem quotedChars_cons (c : Char) (rest : List Char) : quotedChars (c :: rest) =
    (if IsMarked c then ['\\', c]
      else if IsControl c then '\\' :: filled (rest.head?.any Char.isDigit) c.toNat
      else [c]) ++ quotedChars rest := by
  rw [quotedChars]
  rfl

/-- What a string goes on with, quoted, begins with a digit exactly if it does. -/
theorem head_quotedChars (rest r : List Char) :
    (quotedChars rest ++ '"' :: r).head?.any Char.isDigit = rest.head?.any Char.isDigit := by
  rcases rest with - | ⟨c, rest⟩
  · rfl
  · rw [quotedChars_cons]
    split
    · rename_i h
      rcases h with rfl | rfl | rfl <;> rfl
    · split
      · rename_i h
        have hdigit : c.isDigit = false := by
          refine Bool.eq_false_iff.mpr fun hd => ?_
          have hd' := (Bool.and_eq_true _ _).mp hd
          have hlo : 48 ≤ c.toNat := UInt32.le_iff_toNat_le.mp (of_decide_eq_true hd'.1)
          have hhi : c.toNat ≤ 57 := UInt32.le_iff_toNat_le.mp (of_decide_eq_true hd'.2)
          rcases h with h | h <;> omega
        simp [hdigit]
      · rfl

theorem filled_spec : ∀ n < 128, ∀ pad : Bool,
    (filled pad n).foldl (fun k d => 10 * k + (d.toNat - 48)) 0 = n ∧
      (filled pad n).all Char.isDigit = true ∧ (filled pad n).length ≤ 3 ∧
      (pad = true → (filled pad n).length = 3) := by
  decide +kernel

theorem IsControl.lt {c : Char} (h : IsControl c) : c.toNat < 128 := by
  rcases h with h | h <;> omega

/-- The digits a text begins with. -/
theorem takeWhile_filled {n : ℕ} (hn : n < 128) (pad : Bool) (X : List Char) :
    (filled pad n ++ X).takeWhile Char.isDigit = filled pad n ++ X.takeWhile Char.isDigit :=
  List.takeWhile_append_of_pos (List.all_eq_true.mp (filled_spec n hn pad).2.1)

theorem takeWhile_isDigit {X : List Char} : X.takeWhile Char.isDigit = [] ↔
    X.head?.any Char.isDigit = false := by
  rcases X with - | ⟨c, X⟩
  · exact iff_of_true rfl rfl
  · cases hc : c.isDigit <;> simp [hc]

/-- A control character's number ends where the digits do, or after three. -/
theorem filled_inj {c c' : Char} {rest rest' r r' : List Char} (hc : IsControl c)
    (hc' : IsControl c')
    (h : filled (rest.head?.any Char.isDigit) c.toNat ++ (quotedChars rest ++ '"' :: r) =
      filled (rest'.head?.any Char.isDigit) c'.toNat ++ (quotedChars rest' ++ '"' :: r')) :
    c = c' ∧ quotedChars rest ++ '"' :: r = quotedChars rest' ++ '"' :: r' := by
  have hX := head_quotedChars rest r
  have hX' := head_quotedChars rest' r'
  generalize quotedChars rest ++ '"' :: r = X at h hX ⊢
  generalize quotedChars rest' ++ '"' :: r' = X' at h hX' ⊢
  generalize rest.head?.any Char.isDigit = pad at h hX
  generalize rest'.head?.any Char.isDigit = pad' at h hX'
  obtain ⟨hvalue, -, hle, hfull⟩ := filled_spec c.toNat hc.lt pad
  obtain ⟨hvalue', -, hle', hfull'⟩ := filled_spec c'.toNat hc'.lt pad'
  have hdigits := congrArg (List.takeWhile Char.isDigit) h
  rw [takeWhile_filled hc.lt, takeWhile_filled hc'.lt] at hdigits
  have hsame : (filled pad c.toNat).length = (filled pad' c'.toNat).length := by
    have hlength := congrArg List.length hdigits
    rw [List.length_append, List.length_append] at hlength
    have hnone := @takeWhile_isDigit X
    have hnone' := @takeWhile_isDigit X'
    rw [hX, ← List.length_eq_zero_iff] at hnone
    rw [hX', ← List.length_eq_zero_iff] at hnone'
    -- a filled number has three digits, and a digit after it
    cases pad <;> cases pad' <;>
      simp only [Bool.false_eq_true, Bool.true_eq_false, iff_true, iff_false, true_implies,
        false_implies] at hnone hnone' hfull hfull' <;> omega
  obtain ⟨heq, hrest⟩ := List.append_inj h hsame
  refine ⟨?_, hrest⟩
  rw [heq, hvalue'] at hvalue
  exact (Char.toNat_inj.mp hvalue).symm

/-- A character as it is quoted: after a backslash, itself or its number, or as it
is. -/
theorem quotedChars_cases (c : Char) (rest : List Char) :
    (IsMarked c ∧ quotedChars (c :: rest) = '\\' :: c :: quotedChars rest) ∨
      (IsControl c ∧ quotedChars (c :: rest) =
        '\\' :: (filled (rest.head?.any Char.isDigit) c.toNat ++ quotedChars rest)) ∨
      (c ≠ '"' ∧ c ≠ '\\' ∧ quotedChars (c :: rest) = c :: quotedChars rest) := by
  rw [quotedChars_cons]
  by_cases hmarked : IsMarked c
  · rw [if_pos hmarked]
    exact .inl ⟨hmarked, rfl⟩
  · rw [if_neg hmarked]
    by_cases hcontrol : IsControl c
    · rw [if_pos hcontrol]
      exact .inr (.inl ⟨hcontrol, rfl⟩)
    · rw [if_neg hcontrol]
      exact .inr (.inr ⟨fun h => hmarked (.inl h), fun h => hmarked (.inr (.inl h)), rfl⟩)

theorem quotedChars_ne_quote {c : Char} {cs Y r : List Char} :
    '"' :: r ≠ quotedChars (c :: cs) ++ Y := by
  intro h
  rcases quotedChars_cases c cs with ⟨-, heq⟩ | ⟨-, heq⟩ | ⟨hne, -, heq⟩ <;> rw [heq] at h
  · exact absurd (List.cons.inj h).1 (by decide)
  · exact absurd (List.cons.inj h).1 (by decide)
  · exact hne (List.cons.inj h).1.symm

/-- A number begins with a digit, and no marked character is one. -/
theorem marked_ne_filled {c c' : Char} {pad : Bool} {X Y : List Char} (hc : IsMarked c)
    (hc' : IsControl c') : c :: X ≠ filled pad c'.toNat ++ Y := by
  intro h
  have hfull : ∀ n < 128, ∀ pad, (filled pad n).head?.any Char.isDigit = true := by decide +kernel
  have hhead := hfull c'.toNat hc'.lt pad
  rcases hfilled : filled pad c'.toNat with - | ⟨d, ds⟩
  · rw [hfilled] at hhead
    cases hhead
  · rw [hfilled] at h hhead
    obtain rfl := (List.cons.inj h).1
    rcases hc with rfl | rfl | rfl <;> cases hhead

/-- **A quoted string ends where it is seen to.** -/
theorem quotedChars_inj {cs cs' r r' : List Char}
    (h : quotedChars cs ++ '"' :: r = quotedChars cs' ++ '"' :: r') : cs = cs' ∧ r = r' := by
  induction cs generalizing cs' with
  | nil =>
      rcases cs' with - | ⟨c', cs'⟩
      · exact ⟨rfl, (List.cons.inj h).2⟩
      · exact absurd h quotedChars_ne_quote
  | cons c cs ih =>
      rcases cs' with - | ⟨c', cs'⟩
      · exact absurd h.symm quotedChars_ne_quote
      · have hboth : c = c' ∧ quotedChars cs ++ '"' :: r = quotedChars cs' ++ '"' :: r' := by
          rcases quotedChars_cases c cs with ⟨hc, heq⟩ | ⟨hc, heq⟩ | ⟨-, hc, heq⟩ <;>
            rcases quotedChars_cases c' cs' with ⟨hc', heq'⟩ | ⟨hc', heq'⟩ | ⟨-, hc', heq'⟩ <;>
            simp only [heq, heq', List.cons_append, List.append_assoc] at h <;>
            obtain ⟨hfirst, h⟩ := List.cons.inj h
          · exact List.cons.inj h
          · exact absurd h (marked_ne_filled hc hc')
          · exact absurd hfirst.symm hc'
          · exact absurd h.symm (marked_ne_filled hc' hc)
          · exact filled_inj hc hc' h
          · exact absurd hfirst.symm hc'
          · exact absurd hfirst hc
          · exact absurd hfirst hc
          · exact ⟨hfirst, h⟩
        obtain ⟨rfl, hrest⟩ := hboth
        obtain ⟨rfl, rfl⟩ := ih hrest
        exact ⟨rfl, rfl⟩

theorem toList_quoted (s : String) :
    (quoted s).toList = '"' :: (quotedChars s.toList ++ ['"']) := by
  rw [quoted, String.toList_ofList]
  rfl

/-! ### Numbers -/

/-- What `tostring` writes a finite number in: digits, signs, a point and an
exponent. -/
def IsNumeral (text : String) : Prop :=
  text.toList ≠ [] ∧ ∀ c ∈ text.toList, c.isDigit ∨ c ∈ ['+', '-', '.', 'e']

theorem toString_digits (n : ℕ) :
    (toString n).toList ≠ [] ∧ ∀ c ∈ (toString n).toList, c.isDigit = true := by
  show (Nat.repr n).toList ≠ [] ∧ ∀ c ∈ (Nat.repr n).toList, c.isDigit = true
  rw [Nat.repr_eq_ofList_toDigits, String.toList_ofList]
  exact ⟨Nat.toDigits_ne_nil, fun c hc => Nat.isDigit_of_mem_toDigits (by decide) (by decide) hc⟩

theorem isNumeral_of_all {text : String} (hne : text.toList ≠ [])
    (h : (text.toList.all fun c => c.isDigit || ['+', '-', '.', 'e'].contains c) = true) :
    IsNumeral text := by
  refine ⟨hne, fun c hc => ?_⟩
  rcases (Bool.or_eq_true _ _).mp (List.all_eq_true.mp h c hc) with hdigit | hsign
  · exact .inl hdigit
  · exact .inr (List.contains_iff_mem.mp hsign)

theorem isNumeral_int (n : ℤ) : IsNumeral (toString n) := by
  cases n with
  | ofNat n =>
      obtain ⟨hne, hdigits⟩ := toString_digits n
      exact ⟨hne, fun c hc => .inl (hdigits c hc)⟩
  | negSucc n =>
      obtain ⟨-, hdigits⟩ := toString_digits (n + 1)
      have htext : (toString (Int.negSucc n)).toList = '-' :: (toString (n + 1)).toList :=
        String.toList_append
      rw [IsNumeral, htext]
      refine ⟨List.cons_ne_nil _ _, fun c hc => ?_⟩
      rcases List.mem_cons.mp hc with rfl | hc
      · exact .inr (by decide)
      · exact .inl (hdigits c hc)

end Quoted
