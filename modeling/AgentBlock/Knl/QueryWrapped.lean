/-
AgentBlock/Knl/QueryWrapped.lean

The statement the store runs has the plan's inside brackets, with the kernel's cap
behind them.

What closes the brackets is read as it is written exactly when the plan's text
leaves nothing open; and that text is one statement inside the brackets only if
no semicolon ends it, which the scan lets pass.
-/
import AgentBlock.Knl.QueryPlan
import Mathlib.Tactic.IntervalCases

namespace AgentBlock.Knl.Query

open Lexemes

/-! ### Texts behind one another -/

/-- The last lexeme is not open. -/
def Closed (ls : List (Lexeme × Bytes)) : Prop := ∀ l ∈ ls.getLast?, l.1.isOpen = false

instance (ls : List (Lexeme × Bytes)) : Decidable (Closed ls) :=
  inferInstanceAs (Decidable (∀ l ∈ ls.getLast?, _))

theorem Closed.tail {l : Lexeme × Bytes} {ls : List (Lexeme × Bytes)} (h : Closed (l :: ls)) :
    Closed ls := by
  intro m hm
  cases ls with
  | nil => cases hm
  | cons n ls => exact h m hm

/-- Behind lexemes that leave nothing open, what begins with a separator is read
on its own. -/
theorem lexed_append_of_closed {ls ms : List (Lexeme × Bytes)} (hls : Lexed next ls)
    (hclosed : Closed ls) (hms : Lexed next ms) {c : UInt8} (hc : (text ms).head? = some c)
    (hsep : Sep c) : Lexed next (ls ++ ms) := by
  induction ls with
  | nil => exact hms
  | cons l ls ih =>
      obtain ⟨hl, hrest⟩ := hls
      refine ⟨reads_congr hl ?_, ih hrest hclosed.tail⟩
      show Alike l.1 (text ls) (text (ls ++ ms))
      rw [text_append]
      cases ls with
      | nil => exact Or.inr ⟨hclosed l rfl, c, hc, hsep⟩
      | cons m ls =>
          left
          obtain ⟨b, bs, hm⟩ := List.exists_cons_of_ne_nil hrest.1.ne_nil
          rw [text_cons, hm]
          rfl

/-! ### The brackets and the cap -/

/-- A digit is no part of a longer lexeme where a digit or a space is before it. -/
theorem next_digit {d : Nat} (hd : d < 10) (bs : Bytes) :
    next (UInt8.ofNat (48 + d)) bs = (.other, 0) := by
  interval_cases d <;> rfl

theorem digit_of_mem_lit {n : Nat} {b : UInt8} (hb : b ∈ lit (toString n)) :
    ∃ d < 10, b = UInt8.ofNat (48 + d) := by
  have hmem : b ∈ Utf8.encode (Nat.toDigits 10 n) := by
    rw [← Nat.toList_repr]
    exact hb
  obtain ⟨c, hc, hb⟩ := List.mem_flatMap.mp hmem
  have hdigit : c.isDigit = true := Nat.isDigit_of_mem_toDigits (by decide) (by decide) hc
  rw [Char.isDigit, Bool.and_eq_true, decide_eq_true_eq, decide_eq_true_eq] at hdigit
  have hlow : 48 ≤ c.toNat := hdigit.1
  have hhigh : c.toNat ≤ 57 := hdigit.2
  refine ⟨c.toNat - 48, by omega, ?_⟩
  have hone : ∀ d < 10, String.utf8EncodeChar (Char.ofNat (48 + d)) = [UInt8.ofNat (48 + d)] := by
    decide
  have hchar : c = Char.ofNat (48 + (c.toNat - 48)) := by
    rw [Nat.add_sub_cancel' hlow, Char.ofNat_toNat]
  rw [hchar, hone _ (by omega)] at hb
  exact List.mem_singleton.mp hb

/-- What stands before the plan's text. -/
def opening : List (Lexeme × Bytes) :=
  [(.word, lit "SELECT"), (.space, lit " "), (.other, lit "*"), (.space, lit " "),
    (.word, lit "FROM"), (.space, lit " "), (.other, lit "(")]

/-- What stands behind it. -/
def closing (cap : Nat) : List (Lexeme × Bytes) :=
  [(.other, lit ")"), (.space, lit " "), (.word, lit "LIMIT"), (.space, lit " ")] ++
    (lit (toString cap)).map fun b => (.other, [b])

theorem text_digits (bs : Bytes) : text (bs.map fun b => ((.other, [b]) : Lexeme × Bytes)) = bs := by
  induction bs with
  | nil => rfl
  | cons b bs ih => exact congrArg (b :: ·) ih

theorem text_capped (p : QueryPlan) :
    text (opening ++ lexemes next p.sql ++ closing (rowCap p.limit)) = capped p := by
  rw [text_append, text_append, text_lexemes, closing, text_append, text_digits, capped,
    List.append_assoc _ (lit ") LIMIT ")]
  rfl

theorem lexed_digits {bs : Bytes} (h : ∀ b ∈ bs, ∃ d < 10, b = UInt8.ofNat (48 + d)) :
    Lexed next (bs.map fun b => ((.other, [b]) : Lexeme × Bytes)) := by
  induction bs with
  | nil => trivial
  | cons b bs ih =>
      obtain ⟨⟨d, hd, rfl⟩, hbs⟩ := List.forall_mem_cons.mp h
      exact ⟨⟨_, [], rfl, next_digit hd _⟩, ih hbs⟩

theorem lexed_closing (cap : Nat) : Lexed next (closing cap) :=
  ⟨⟨_, [], rfl, rfl⟩, ⟨_, [], rfl, rfl⟩, ⟨_, lit "IMIT", rfl, rfl⟩, ⟨_, [], rfl, rfl⟩,
    lexed_digits fun _ => digit_of_mem_lit⟩

theorem lexed_opening {ms : List (Lexeme × Bytes)} (hms : Lexed next ms) :
    Lexed next (opening ++ ms) :=
  ⟨⟨_, lit "ELECT", rfl, rfl⟩, ⟨_, [], rfl, rfl⟩, ⟨_, [], rfl, rfl⟩, ⟨_, [], rfl, rfl⟩,
    ⟨_, lit "ROM", rfl, rfl⟩, ⟨_, [], rfl, rfl⟩, ⟨_, [], rfl, rfl⟩, hms⟩

/-- **The lexemes of the statement the store runs**, if the plan's text leaves
nothing open. -/
theorem lexemes_capped {p : QueryPlan} (h : Closed (lexemes next p.sql)) :
    lexemes next (capped p) = opening ++ lexemes next p.sql ++ closing (rowCap p.limit) := by
  have hlexed : Lexed next (opening ++ lexemes next p.sql ++ closing (rowCap p.limit)) := by
    rw [List.append_assoc]
    refine lexed_opening (lexed_append_of_closed (lexed_lexemes next_bounded _) h
      (lexed_closing _) rfl ?_)
    show Sep (ascii ')')
    decide
  rw [← text_capped, hlexed.lexemes_text]

/-! ### One statement inside the brackets -/

/-- A text that ends as a statement inside brackets may: no semicolon closes it,
and its end closes no comment and no quote. -/
def EndsWell (sql : Bytes) : Prop :=
  (∀ l ∈ lexemes next sql, l.1 ≠ .semicolon) ∧ Closed (lexemes next sql)

instance (sql : Bytes) : Decidable (EndsWell sql) := inferInstanceAs (Decidable (_ ∧ _))

/-- The plan's text is one statement that can be wrapped, and is wrapped. -/
structure Wrapped (p : QueryPlan) : Prop where
  one : ∀ l ∈ lexemes next p.sql, l.1 ≠ .semicolon
  ends : Closed (lexemes next p.sql)
  /-- The bracket, and the cap behind it, are code. -/
  code : lexemes next (capped p) = opening ++ lexemes next p.sql ++ closing (rowCap p.limit)
  accepted : ∃ found, scan (capped p) = .ok found ∧ found.keyword ∈ READ_KEYWORDS

section

variable {sessions : List String}

/-- What stands between brackets is question marks and what separates them. -/
theorem mem_marks {sep : List (Lexeme × Bytes)} {l : Lexeme × Bytes} (ids : List String)
    (h : l ∈ sep.intercalate (ids.map fun _ => [mark])) : l ∈ sep ∨ l = mark := by
  induction ids with
  | nil => cases h
  | cons id ids ih =>
      cases ids with
      | nil =>
          rw [List.map_cons, List.map_nil, List.intercalate_singleton] at h
          exact Or.inr (List.mem_singleton.mp h)
      | cons id' ids =>
          rw [List.map_cons, List.map_cons, List.intercalate_cons_cons, List.mem_append,
            List.mem_append, List.mem_singleton] at h
          obtain (h | h) | h := h
          · exact Or.inr h
          · exact Or.inl h
          · exact ih h

/-- No lexeme of a replacement ends a statement, is open or is a word. -/
theorem placed_kinds {p : Param} {l : Lexeme × Bytes} (h : l ∈ placed sessions p) :
    l.1 ≠ .semicolon ∧ l.1.isOpen = false ∧ l.1 ≠ .word := by
  have hmark : mark.1 ≠ .semicolon ∧ mark.1.isOpen = false ∧ mark.1 ≠ .word := by
    simp [mark, Lexeme.isOpen]
  cases p with
  | sessions =>
      rw [placed, List.mem_append, List.mem_append, List.mem_singleton, List.mem_singleton] at h
      obtain (rfl | h) | rfl := h
      · simp [Lexeme.isOpen]
      · obtain hsep | rfl := mem_marks sessions h
        · simp only [List.mem_cons, List.not_mem_nil, or_false] at hsep
          obtain rfl | rfl := hsep
          · simp [Lexeme.isOpen]
          · simp [Lexeme.isOpen]
        · exact hmark
      · simp [Lexeme.isOpen]
  | _ =>
      obtain rfl := List.mem_singleton.mp h
      exact hmark

theorem placed_ne_nil (p : Param) : placed sessions p ≠ [] := by
  cases p with
  | sessions => exact List.append_ne_nil_of_right_ne_nil _ nofun
  | _ => exact nofun

/-- Replacing the parameters brings no semicolon and takes none away. -/
theorem semicolon_rewritten {ls : List (Lexeme × Bytes)} :
    (∀ l ∈ rewritten sessions ls, l.1 ≠ .semicolon) ↔ ∀ l ∈ ls, l.1 ≠ .semicolon := by
  constructor
  · intro h l hl hsemi
    refine h l (List.mem_flatMap.mpr ⟨l, hl, ?_⟩) hsemi
    rw [inPlace_of_ne sessions fun p hp => nomatch hsemi.symm.trans hp]
    exact List.mem_singleton.mpr rfl
  · intro h l hl
    obtain ⟨m, hm, hl⟩ := List.mem_flatMap.mp hl
    obtain ⟨kind, own⟩ := m
    cases kind with
    | param p => exact (placed_kinds hl).1
    | _ =>
        obtain rfl := List.mem_singleton.mp hl
        exact h _ hm

/-- The last lexeme is open where the last of the caller's is. -/
theorem closed_rewritten {ls : List (Lexeme × Bytes)} :
    Closed (rewritten sessions ls) ↔ Closed ls := by
  obtain rfl | ⟨ls, l, rfl⟩ := List.eq_nil_or_concat ls
  · rfl
  have hlast : rewritten sessions (ls ++ [l]) = rewritten sessions ls ++ inPlace sessions l := by
    rw [rewritten, List.flatMap_append, List.flatMap_singleton]
    rfl
  have hone : Closed (ls ++ [l]) ↔ l.1.isOpen = false := by
    rw [Closed, List.getLast?_concat]
    exact ⟨fun h => h l rfl, fun h m hm => Option.some.inj hm ▸ h⟩
  rw [List.concat_eq_append, hone, hlast, Closed]
  obtain ⟨kind, own⟩ := l
  cases kind with
  | param p =>
      refine ⟨fun _ => rfl, fun _ m hm => ?_⟩
      rw [show inPlace sessions (.param p, own) = placed sessions p from rfl,
        List.getLast?_append_of_ne_nil _ (placed_ne_nil p)] at hm
      exact (placed_kinds (List.mem_of_getLast? hm)).2.1
  | _ =>
      rw [inPlace_of_ne sessions (by nofun), List.getLast?_concat]
      exact ⟨fun h => h _ rfl, fun h m hm => Option.some.inj hm ▸ h⟩

end

theorem oneStatement_of_no_semicolon {ls : List (Lexeme × Bytes)}
    (h : ∀ l ∈ ls, l.1 ≠ .semicolon) : oneStatement false ls = true := by
  induction ls with
  | nil => rfl
  | cons l ls ih =>
      obtain ⟨hl, hls⟩ := List.forall_mem_cons.mp h
      rw [oneStatement, decide_eq_false hl, ih hls]
      exact ite_self _

/-- What is between the brackets, if no semicolon is in it, makes one statement
that reads of the whole. -/
theorem scan_of_lexemes {sql : Bytes} {ls : List (Lexeme × Bytes)} {cap : Nat}
    (hcode : lexemes next sql = opening ++ ls ++ closing cap) (h : ∀ l ∈ ls, l.1 ≠ .semicolon) :
    scan sql = .ok ⟨lit "SELECT", tokensAt 0 (lexemes next sql)⟩ := by
  refine scan_ok_iff.mpr ⟨?_, ?_, rfl⟩
  · rw [hcode]
    refine oneStatement_of_no_semicolon fun l hl => ?_
    rw [List.mem_append, List.mem_append] at hl
    obtain (hl | hl) | hl := hl
    · revert l
      show ∀ l ∈ opening, l.1 ≠ .semicolon
      decide
    · exact h l hl
    · rw [closing, List.mem_append, List.mem_map] at hl
      obtain hl | ⟨b, -, rfl⟩ := hl
      · revert l
        decide
      · exact nofun
  · rw [hcode]
    show some ((lit "SELECT").map toUpper) = some (lit "SELECT")
    decide

/-- **The plan's text can be wrapped exactly when the caller's ends well.**  What is
put in the place of a parameter closes and opens nothing, so a semicolon, an open
comment or an open quote of the plan's text is one of the caller's. -/
theorem plan_wrapped_iff {sql : Bytes} {params : QueryParams} {opts : QueryOpts} {stream : String}
    {p : QueryPlan} (h : plan sql params opts stream = .ok p) : Wrapped p ↔ EndsWell sql := by
  obtain ⟨sessions, found, -, -, -, rfl⟩ := plan_ok_iff.mp h
  have hls : lexemes next (planned sql params opts stream sessions found.params).sql =
      rewritten sessions (lexemes next sql) := lexemes_rewritten sql
  have hone : (∀ l ∈ lexemes next (planned sql params opts stream sessions found.params).sql,
      l.1 ≠ .semicolon) ↔ ∀ l ∈ lexemes next sql, l.1 ≠ .semicolon := by
    rw [hls]
    exact semicolon_rewritten
  have hends : Closed (lexemes next (planned sql params opts stream sessions found.params).sql) ↔
      Closed (lexemes next sql) := by
    rw [hls]
    exact closed_rewritten
  refine ⟨fun hw => ⟨hone.mp hw.one, hends.mp hw.ends⟩, fun ⟨hsemi, hclosed⟩ => ?_⟩
  have hcode := lexemes_capped (hends.mpr hclosed)
  exact ⟨hone.mpr hsemi, hends.mpr hclosed, hcode, _, scan_of_lexemes hcode (hone.mpr hsemi),
    List.mem_cons_self⟩

/-- A semicolon at the end, and a comment that the end of the text ends, are let
pass and are not wrapped. -/
theorem trailing_not_wrapped :
    (∃ p, plan (lit "SELECT 1;") .none {} "s-1" = .ok p ∧ ¬ Wrapped p) ∧
      ∃ p, plan (lit "SELECT 1 -- one") .none {} "s-1" = .ok p ∧ ¬ Wrapped p := by
  refine ⟨⟨_, rfl, fun hw => absurd hw.one ?_⟩, ⟨_, rfl, fun hw => absurd hw.ends ?_⟩⟩
  · decide
  · decide

theorem plan_wrapped_comment :
    ∃ p, plan (lit "SELECT 1 -- one\n") .none {} "s-1" = .ok p ∧ Wrapped p := by
  have h : plan (lit "SELECT 1 -- one\n") .none {} "s-1" = .ok _ := rfl
  exact ⟨_, h, (plan_wrapped_iff h).mpr (by decide)⟩

end AgentBlock.Knl.Query
