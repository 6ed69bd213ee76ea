/-
AgentBlock/Lib/Lexemes.lean

Cutting a text into lexemes, from the left and with nothing left over.

A language is `next`: of a symbol and what follows it, what kind of lexeme the
symbol begins, and how many of the symbols after it are of that lexeme.  A
lexeme is kept with its text, so cutting loses nothing (`text_lexemes`), and a
list of lexemes is how its text is cut exactly when each is what the text reads
as where it stands (`lexemes_text_iff`).
-/
import Mathlib.Data.List.Basic

namespace Lexemes

variable {α κ : Type*}

/-- The text lexemes are cut from. -/
def text (ls : List (κ × List α)) : List α := ls.flatMap Prod.snd

@[simp] theorem text_nil : text ([] : List (κ × List α)) = [] := rfl

@[simp] theorem text_cons (l : κ × List α) (ls : List (κ × List α)) :
    text (l :: ls) = l.2 ++ text ls := rfl

@[simp] theorem text_append (ls ms : List (κ × List α)) :
    text (ls ++ ms) = text ls ++ text ms := List.flatMap_append

section

variable (next : α → List α → κ × Nat)

/-- The first `fuel` lexemes. -/
def cut : Nat → List α → List (κ × List α)
  | 0, _ => []
  | _, [] => []
  | fuel + 1, a :: as =>
      ((next a as).1, a :: as.take (next a as).2) :: cut fuel (as.drop (next a as).2)

/-- The lexemes of a text: there are no more than it has symbols. -/
def lexemes (as : List α) : List (κ × List α) := cut next as.length as

theorem cut_of_length_le {n m : Nat} {as : List α} (hn : as.length ≤ n) (hm : as.length ≤ m) :
    cut next n as = cut next m as := by
  induction n generalizing m as with
  | zero =>
      obtain rfl := List.eq_nil_of_length_eq_zero (Nat.le_zero.mp hn)
      cases m <;> rfl
  | succ n ih =>
      cases as with
      | nil => cases m <;> rfl
      | cons a as =>
          cases m with
          | zero => cases hm
          | succ m =>
              have hdrop : (as.drop (next a as).2).length ≤ as.length := by
                rw [List.length_drop]
                exact Nat.sub_le _ _
              rw [cut, cut, ih (Nat.le_trans hdrop (Nat.le_of_succ_le_succ hn))
                (Nat.le_trans hdrop (Nat.le_of_succ_le_succ hm))]

@[simp] theorem lexemes_nil : lexemes next [] = [] := rfl

theorem lexemes_cons (a : α) (as : List α) :
    lexemes next (a :: as) =
      ((next a as).1, a :: as.take (next a as).2) :: lexemes next (as.drop (next a as).2) := by
  have hdrop : (as.drop (next a as).2).length ≤ as.length := by
    rw [List.length_drop]
    exact Nat.sub_le _ _
  rw [lexemes, lexemes, List.length_cons, cut, cut_of_length_le next hdrop (Nat.le_refl _)]

/-- Nothing of a text is lost. -/
@[simp] theorem text_lexemes (as : List α) : text (lexemes next as) = as := by
  induction h : as.length using Nat.strongRecOn generalizing as with
  | ind n ih =>
      cases as with
      | nil => rfl
      | cons a as =>
          subst h
          rw [lexemes_cons, text_cons, ih _ ?_ _ rfl]
          · show a :: (as.take _ ++ as.drop _) = _
            rw [List.take_append_drop]
          · rw [List.length_drop]
            exact Nat.lt_succ_of_le (Nat.sub_le _ _)

/-- Before `rest`, the text of `l` is read as `l`. -/
def Reads (l : κ × List α) (rest : List α) : Prop :=
  ∃ a as, l.2 = a :: as ∧ next a (as ++ rest) = (l.1, as.length)

/-- Every lexeme is what its text reads as where it stands. -/
def Lexed : List (κ × List α) → Prop
  | [] => True
  | l :: ls => Reads next l (text ls) ∧ Lexed ls

variable {next}

theorem Reads.ne_nil {l : κ × List α} {rest : List α} (h : Reads next l rest) : l.2 ≠ [] := by
  obtain ⟨a, as, hl, -⟩ := h
  rw [hl]
  exact nofun

/-- A text that begins with a lexeme is cut behind it. -/
theorem Reads.lexemes_append {l : κ × List α} {rest : List α} (h : Reads next l rest) :
    lexemes next (l.2 ++ rest) = l :: lexemes next rest := by
  obtain ⟨kind, own⟩ := l
  obtain ⟨a, as, rfl, hnext⟩ := h
  show lexemes next (a :: (as ++ rest)) = _
  rw [lexemes_cons, hnext, List.take_left, List.drop_left]

/-- **Lexemes that read as they stand are the lexemes of their text.** -/
theorem Lexed.lexemes_text {ls : List (κ × List α)} (h : Lexed next ls) :
    lexemes next (text ls) = ls := by
  induction ls with
  | nil => rfl
  | cons l ls ih => rw [text_cons, h.1.lexemes_append, ih h.2]

/-- No lexeme reaches behind the end of the text. -/
def Bounded (next : α → List α → κ × Nat) : Prop := ∀ a as, (next a as).2 ≤ as.length

theorem lexed_lexemes (hb : Bounded next) (as : List α) : Lexed next (lexemes next as) := by
  induction h : as.length using Nat.strongRecOn generalizing as with
  | ind n ih =>
      cases as with
      | nil => trivial
      | cons a as =>
          subst h
          rw [lexemes_cons]
          refine ⟨⟨a, as.take (next a as).2, rfl, ?_⟩, ih _ ?_ _ rfl⟩
          · rw [text_lexemes, List.take_append_drop, List.length_take, Nat.min_eq_left (hb a as)]
          · rw [List.length_drop]
            exact Nat.lt_succ_of_le (Nat.sub_le _ _)

theorem lexemes_text_iff (hb : Bounded next) {ls : List (κ × List α)} :
    lexemes next (text ls) = ls ↔ Lexed next ls :=
  ⟨fun h => h ▸ lexed_lexemes hb _, Lexed.lexemes_text⟩

end

end Lexemes
