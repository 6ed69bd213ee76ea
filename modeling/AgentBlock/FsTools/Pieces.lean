/-
AgentBlock/FsTools/Pieces.lean

What an edit of whole lines writes, against what its texts say.

A file is read as pieces: the lines no text touches, and for each edit the lines
it touches.  A piece is written as it is meant, or with a newline too many, or
not at all where an empty line is meant (`Piece`).  What is written is what is
meant exactly when each newline too many is made up for by one too few, with
nothing but newlines between them (`Balanced`), and a file of which nothing is
left keeps one newline (`Lands`).
-/
import AgentBlock.FsTools.Spans

namespace AgentBlock.FsTools

open Bridge.Fs

/-! ### Pieces -/

inductive Piece where
  /-- Written as it is meant. -/
  | same (text : Text)
  /-- Meant without the newline it is written with. -/
  | gains (text : Text)
  /-- Not written, where an empty line is meant. -/
  | loses
  deriving DecidableEq

def Piece.meant : Piece → Text
  | same text | gains text => text
  | loses => ['\n']

def Piece.written : Piece → Text
  | same text => text
  | gains text => text ++ ['\n']
  | loses => []

/-- A piece gains a newline only after something else than a newline. -/
def Piece.Proper : Piece → Prop
  | gains text => ∃ init c, text = init ++ [c] ∧ c ≠ '\n'
  | _ => True

/-- Each newline too many is made up for, with nothing but newlines on the way;
`ahead` is whether one is still to be. -/
def Balanced (ahead : Bool) : List Piece → Prop
  | [] => ahead = false
  | .same text :: pieces => (ahead = true → ∀ c ∈ text, c = '\n') ∧ Balanced ahead pieces
  | .gains _ :: pieces => ahead = false ∧ Balanced true pieces
  | .loses :: pieces => ahead = true ∧ Balanced false pieces

instance decidableBalanced : (ahead : Bool) → (pieces : List Piece) →
    Decidable (Balanced ahead pieces)
  | _, [] => inferInstanceAs (Decidable (_ = _))
  | ahead, .same text :: pieces =>
      have := decidableBalanced ahead pieces
      have := List.decidableBAll (fun c => c = '\n') text
      inferInstanceAs (Decidable (_ ∧ _))
  | _, .gains _ :: pieces =>
      have := decidableBalanced true pieces
      inferInstanceAs (Decidable (_ ∧ _))
  | _, .loses :: pieces =>
      have := decidableBalanced false pieces
      inferInstanceAs (Decidable (_ ∧ _))

variable {pieces : List Piece} {text left right : Text} {k : ℕ}

def meant (pieces : List Piece) : Text := pieces.flatMap Piece.meant

def written (pieces : List Piece) : Text := pieces.flatMap Piece.written

/-- A text that goes on as itself behind some newlines is all newlines. -/
theorem newlines_of_shift (left right : Text) (hk : k ≠ 0)
    (h : text ++ left = List.replicate k '\n' ++ text ++ right) : ∀ c ∈ text, c = '\n' := by
  induction text with
  | nil => exact fun c hc => absurd hc List.not_mem_nil
  | cons c text ih =>
      obtain ⟨k, rfl⟩ := Nat.exists_eq_succ_of_ne_zero hk
      rw [List.replicate_succ, List.cons_append, List.cons_append, List.cons_append] at h
      obtain ⟨rfl, hrest⟩ := List.cons_eq_cons.mp h
      have hshift : text ++ left = List.replicate (k + 1) '\n' ++ text ++ right := by
        rw [hrest, List.replicate_succ']
        simp only [List.append_assoc, List.cons_append, List.nil_append]
      intro c hc
      rcases List.mem_cons.mp hc with rfl | hc
      · rfl
      · exact ih hshift c hc

/-- Newlines in front of newlines are newlines behind them. -/
theorem shift_of_newlines (h : ∀ c ∈ text, c = '\n') (n : ℕ) :
    List.replicate n '\n' ++ text = text ++ List.replicate n '\n' := by
  rw [List.eq_replicate_of_mem h, ← List.replicate_add, ← List.replicate_add, Nat.add_comm]

/-- Where less is written than is meant, nothing makes up for it. -/
theorem written_ne_of_behind (hproper : ∀ piece ∈ pieces, piece.Proper) (hk : k ≠ 0) :
    written pieces ≠ List.replicate k '\n' ++ meant pieces := by
  induction pieces generalizing k with
  | nil =>
      intro h
      have := congrArg List.length h
      simp [written, meant] at this
      omega
  | cons piece pieces ih =>
      have hrest := fun {k : ℕ} (hk : k ≠ 0) =>
        ih (fun x hx => hproper x (List.mem_cons_of_mem _ hx)) hk
      intro h
      cases piece with
      | same text =>
          change text ++ written pieces = List.replicate k '\n' ++ (text ++ meant pieces) at h
          rw [← List.append_assoc] at h
          have hall := newlines_of_shift _ _ hk h
          rw [shift_of_newlines hall, List.append_assoc] at h
          exact hrest hk (List.append_cancel_left h)
      | gains text =>
          change text ++ ['\n'] ++ written pieces =
            List.replicate k '\n' ++ (text ++ meant pieces) at h
          rw [List.append_assoc, ← List.append_assoc (List.replicate _ _)] at h
          obtain ⟨init, c, rfl, hc⟩ := hproper _ List.mem_cons_self
          exact hc (newlines_of_shift _ _ hk h c (by simp))
      | loses =>
          change written pieces = List.replicate k '\n' ++ (['\n'] ++ meant pieces) at h
          rw [← List.append_assoc, ← List.replicate_succ'] at h
          exact hrest (Nat.succ_ne_zero k) h

/-- **What is written is what is meant** exactly when it balances. -/
theorem written_eq_meant_iff (hproper : ∀ piece ∈ pieces, piece.Proper) (ahead : Bool) :
    (if ahead then ['\n'] else []) ++ written pieces = meant pieces ↔ Balanced ahead pieces := by
  induction pieces generalizing ahead with
  | nil => cases ahead <;> simp [written, meant, Balanced]
  | cons piece pieces ih =>
      have hothers : ∀ x ∈ pieces, x.Proper := fun x hx => hproper x (List.mem_cons_of_mem _ hx)
      have hrest := ih hothers
      cases piece with
      | same text =>
          change _ ++ (text ++ written pieces) = text ++ meant pieces ↔
            (ahead = true → ∀ c ∈ text, c = '\n') ∧ Balanced ahead pieces
          rw [← hrest]
          cases ahead with
          | false => simp
          | true =>
              simp only [if_true, true_implies]
              constructor
              · intro h
                -- a text that stays the same behind one newline too many is newlines throughout
                have hall : ∀ c ∈ text, c = '\n' := by
                  apply newlines_of_shift (k := 1) (meant pieces) (written pieces) Nat.one_ne_zero
                  rw [List.append_assoc]
                  exact h.symm
                refine ⟨hall, ?_⟩
                have hshift : ['\n'] ++ text = text ++ ['\n'] := shift_of_newlines hall 1
                rw [← List.append_assoc, hshift, List.append_assoc] at h
                exact List.append_cancel_left h
              · rintro ⟨hall, h⟩
                have hshift : ['\n'] ++ text = text ++ ['\n'] := shift_of_newlines hall 1
                rw [← List.append_assoc, hshift, List.append_assoc]
                exact congrArg _ h
      | gains text =>
          change _ ++ (text ++ ['\n'] ++ written pieces) = text ++ meant pieces ↔
            ahead = false ∧ Balanced true pieces
          rw [← hrest]
          cases ahead with
          | false => simp
          | true =>
              refine iff_of_false (fun h => ?_) (fun h => Bool.noConfusion h.1)
              -- two newlines ahead, and the piece ends in another character
              obtain ⟨init, c, rfl, hc⟩ := hproper _ List.mem_cons_self
              have hshift : init ++ [c] ++ meant pieces =
                  List.replicate 1 '\n' ++ (init ++ [c]) ++ (['\n'] ++ written pieces) := by
                simpa using h.symm
              exact hc (newlines_of_shift _ _ Nat.one_ne_zero hshift c (by simp))
      | loses =>
          change _ ++ ([] ++ written pieces) = ['\n'] ++ meant pieces ↔
            ahead = true ∧ Balanced false pieces
          rw [← hrest, List.nil_append]
          cases ahead with
          | true => simp
          | false =>
              refine iff_of_false ?_ (fun h => Bool.noConfusion h.1)
              exact written_ne_of_behind hothers Nat.one_ne_zero

/-- The pieces write a file as it is meant: they balance, or nothing is left
and one empty line was meant to be. -/
def Lands (pieces : List Piece) : Prop :=
  if written pieces = [] then pieces.count .loses = 1 else Balanced false pieces

instance : Decidable (Lands pieces) := by unfold Lands; infer_instance

/-- Where nothing is written, what is meant is a newline for each line lost. -/
theorem meant_of_written_nil (h : written pieces = []) :
    meant pieces = List.replicate (pieces.count .loses) '\n' := by
  induction pieces with
  | nil => rfl
  | cons piece pieces ih =>
      obtain ⟨hpiece, hrest⟩ : piece.written = [] ∧ written pieces = [] :=
        List.append_eq_nil_iff.mp h
      have hmeant : meant (piece :: pieces) = piece.meant ++ meant pieces := rfl
      rw [hmeant, ih hrest]
      cases piece with
      | same text =>
          obtain rfl : text = [] := hpiece
          rw [List.count_cons_of_ne (by simp)]
          rfl
      | gains text => exact absurd hpiece (by simp [Piece.written])
      | loses => rw [List.count_cons_self, List.replicate_succ]; rfl

end AgentBlock.FsTools
