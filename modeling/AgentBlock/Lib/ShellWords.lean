/-
AgentBlock/Lib/ShellWords.lean

How a shell splits a command into words, where the command quotes with single
quotes and backslashes only.

A byte of a word keeps whether it was quoted: one that was has no meaning to the
shell.  A command that holds an unquoted byte which has one is not split.

`Reads text word` says that `text`, wherever it stands, adds `word` to the word it
stands in.  It is proved for quoted strings and for plain ones, and
`split_intercalate` puts such texts together:

    text₁ ␣ text₂ ␣ … ␣ textₙ   splits into   word₁, word₂, …, wordₙ.
-/
import Mathlib.Data.List.Forall2
import Mathlib.Data.List.Basic

namespace ShellWords

/-- A byte of a word, and whether it was quoted. -/
structure Letter where
  byte : UInt8
  quoted : Bool
  deriving DecidableEq

abbrev Word := List Letter

/-- What the program is handed. -/
def Word.text (w : Word) : List UInt8 := w.map Letter.byte

def quoted (s : List UInt8) : Word := s.map (Letter.mk · true)

def bare (s : List UInt8) : Word := s.map (Letter.mk · false)

@[simp] theorem text_quoted (s : List UInt8) : (quoted s).text = s := by
  simp [Word.text, quoted, Function.comp_def]

@[simp] theorem text_bare (s : List UInt8) : (bare s).text = s := by
  simp [Word.text, bare, Function.comp_def]

/-! ### Splitting -/

def singleQuote : UInt8 := 39

def backslash : UInt8 := 92

def newline : UInt8 := 10

/-- Space and tab. -/
def blanks : List UInt8 := [32, 9]

/-- A newline, and what stands for something to a shell: `|&;<>()$` and the
backquote, the double quote, and `*?[#~=%!]{}`. -/
def special : List UInt8 :=
  [10, 124, 38, 59, 60, 62, 40, 41, 36, 96, 34, 42, 63, 91, 35, 126, 61, 37, 33, 93, 123, 125]

inductive Mode where
  | plain
  /-- Between single quotes. -/
  | single
  /-- After a backslash. -/
  | escaped
  deriving DecidableEq

/-- Split the rest of a command, in the middle of a word where there is one. -/
def splitFrom : Mode → Option Word → List UInt8 → Option (List Word)
  | .plain, word, [] => some word.toList
  | .plain, word, b :: rest =>
      if b = singleQuote then splitFrom .single (some (word.getD [])) rest
      else if b = backslash then splitFrom .escaped word rest
      else if b ∈ blanks then (splitFrom .plain none rest).map (word.toList ++ ·)
      else if b ∈ special then none
      else splitFrom .plain (some (word.getD [] ++ [⟨b, false⟩])) rest
  -- A quote that is not closed, and a backslash at the end.
  | .single, _, [] => none
  | .escaped, _, [] => none
  | .single, word, b :: rest =>
      if b = singleQuote then splitFrom .plain word rest
      else splitFrom .single (some (word.getD [] ++ [⟨b, true⟩])) rest
  | .escaped, word, b :: rest =>
      -- A line goes on after a backslash.
      if b = newline then splitFrom .plain word rest
      else splitFrom .plain (some (word.getD [] ++ [⟨b, true⟩])) rest

def split (command : List UInt8) : Option (List Word) := splitFrom .plain none command

/-! ### What a text reads as -/

/-- `text` adds `word` to the word it stands in. -/
def Reads (text : List UInt8) (word : Word) : Prop :=
  ∀ (w : Option Word) (rest : List UInt8),
    splitFrom .plain w (text ++ rest) = splitFrom .plain (some (w.getD [] ++ word)) rest

theorem Reads.append {s t : List UInt8} {v w : Word} (hs : Reads s v) (ht : Reads t w) :
    Reads (s ++ t) (v ++ w) := by
  intro u rest
  rw [List.append_assoc, hs u, ht, Option.getD_some, List.append_assoc]

/-- A byte of no meaning to a shell. -/
def isBare (b : UInt8) : Bool :=
  b ≠ singleQuote ∧ b ≠ backslash ∧ b ∉ blanks ∧ b ∉ special

/-- Bytes of no meaning, unquoted. -/
theorem reads_bare {s : List UInt8} (hs : s ≠ []) (h : s.all isBare = true) :
    Reads s (bare s) := by
  have hone : ∀ b ∈ s, Reads [b] (bare [b]) := by
    intro b hb w rest
    obtain ⟨hquote, hback, hblank, hspecial⟩ := of_decide_eq_true (List.all_eq_true.mp h b hb)
    show splitFrom .plain w (b :: rest) = _
    simp only [splitFrom, if_neg hquote, if_neg hback, if_neg hblank, if_neg hspecial]
    rfl
  clear h
  induction s with
  | nil => exact absurd rfl hs
  | cons b s ih =>
      rcases eq_or_ne s [] with rfl | hne
      · exact hone b List.mem_cons_self
      · exact (hone b List.mem_cons_self).append
          (ih hne fun c hc => hone c (List.mem_cons_of_mem b hc))

/-! ### Quoting -/

/-- A byte between single quotes; a quote closes them, stands after a backslash,
and opens them again. -/
def quoteByte (b : UInt8) : List UInt8 :=
  if b = singleQuote then [singleQuote, backslash, singleQuote, singleQuote] else [b]

def quote (s : List UInt8) : List UInt8 :=
  singleQuote :: (s.flatMap quoteByte ++ [singleQuote])

/-- Between the quotes, a byte is read as itself. -/
theorem splitFrom_quoteByte (b : UInt8) (w : Word) (rest : List UInt8) :
    splitFrom .single (some w) (quoteByte b ++ rest) =
      splitFrom .single (some (w ++ [⟨b, true⟩])) rest := by
  by_cases hb : b = singleQuote
  · subst hb
    rfl
  · rw [quoteByte, if_neg hb]
    show splitFrom .single (some w) (b :: rest) = _
    simp only [splitFrom, if_neg hb]
    rfl

theorem splitFrom_quoteBytes (s : List UInt8) (w : Word) (rest : List UInt8) :
    splitFrom .single (some w) (s.flatMap quoteByte ++ singleQuote :: rest) =
      splitFrom .plain (some (w ++ quoted s)) rest := by
  induction s generalizing w with
  | nil =>
      show splitFrom .plain (some w) rest = splitFrom .plain (some (w ++ [])) rest
      rw [List.append_nil]
  | cons b s ih =>
      rw [List.flatMap_cons, List.append_assoc, splitFrom_quoteByte, ih, List.append_assoc]
      rfl

/-- **A quoted string** is one word, or a part of one, and none of it is read as
anything else. -/
theorem reads_quote (s : List UInt8) : Reads (quote s) (quoted s) := by
  intro w rest
  have hquote : quote s ++ rest = singleQuote :: (s.flatMap quoteByte ++ singleQuote :: rest) := by
    rw [quote, List.cons_append, List.append_assoc]
    rfl
  rw [hquote]
  exact splitFrom_quoteBytes s (w.getD []) rest

/-! ### A command of several words -/

theorem splitFrom_blank (w : Word) (rest : List UInt8) :
    splitFrom .plain (some w) (32 :: rest) = (splitFrom .plain none rest).map (w :: ·) := rfl

/-- **Texts joined by spaces** split into their words. -/
theorem split_intercalate {texts : List (List UInt8)} {words : List Word}
    (h : List.Forall₂ Reads texts words) : split ([32].intercalate texts) = some words := by
  induction h with
  | nil => rfl
  | @cons text word texts words hread hreads ih =>
      cases hreads with
      | nil =>
          have hjoined : [32].intercalate [text] = text ++ [] := by simp [List.intercalate]
          rw [split, hjoined, hread]
          rfl
      | @cons text' word' texts words hread' hreads =>
          have hjoined : [32].intercalate (text :: text' :: texts) =
              text ++ 32 :: [32].intercalate (text' :: texts) := by
            simp [List.intercalate]
          rw [split, hjoined, hread, splitFrom_blank]
          exact congrArg (Option.map _) ih

end ShellWords
