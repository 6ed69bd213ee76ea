/-
AgentBlock/Lib/Checks.lean

Walks that look for the first thing wrong: a walk may raise (`ε`), and else it
answers with what it found (`ρ`), or that there is nothing.

`Right c P` is what an answer is worth: where the walk `c` found nothing `P` holds,
and where it found something `P` does not.  A walk that raises says nothing.
-/
import AgentBlock.Lib.Except

universe u v w

/-- What a walk comes to. -/
abbrev Checked (ε : Type u) (ρ : Type v) := Except ε (Option ρ)

namespace Checked

variable {ε : Type u} {ρ : Type v} {α : Type w}

def pass : Checked ε ρ := .ok none

def found (r : ρ) : Checked ε ρ := .ok (some r)

/-- The second walk, if the first found nothing. -/
def andThen (c d : Checked ε ρ) : Checked ε ρ :=
  match c with
  | .ok none => d
  | .ok (some r) => .ok (some r)
  | .error e => .error e

/-- The second walk, if the first found something. -/
def orElse (c : Checked ε ρ) (d : ρ → Checked ε ρ) : Checked ε ρ :=
  match c with
  | .ok none => .ok none
  | .ok (some r) => d r
  | .error e => .error e

/-- One after the other, up to the first that is wrong. -/
def all (check : α → Checked ε ρ) : List α → Checked ε ρ
  | [] => pass
  | a :: rest => (check a).andThen (all check rest)

/-- The walk does not raise. -/
def Answers (c : Checked ε ρ) : Prop := ∀ e, c ≠ .error e

/-- The answer is right about `P`. -/
structure Right (c : Checked ε ρ) (P : Prop) : Prop where
  holds : c = .ok none → P
  fails : ∀ r, c = .ok (some r) → ¬ P

variable {c d : Checked ε ρ} {f g : α → Checked ε ρ} {l : List α} {P Q : Prop}

/-! ### What an answer is worth -/

theorem Right.pass (h : P) : Right (pass : Checked ε ρ) P := by
  refine ⟨fun _ => h, ?_⟩
  intro r hr
  cases hr

theorem Right.found {r : ρ} (h : ¬ P) : Right (found r : Checked ε ρ) P := by
  refine ⟨?_, fun _ _ => h⟩
  intro hr
  cases hr

theorem Right.error {e : ε} : Right (.error e : Checked ε ρ) P := by
  constructor
  · intro hr
    cases hr
  · intro r hr
    cases hr

theorem Right.congr (h : Right c P) (hiff : P ↔ Q) : Right c Q :=
  ⟨fun hc => hiff.mp (h.holds hc), fun r hc hq => h.fails r hc (hiff.mpr hq)⟩

theorem Right.ite {p : Prop} [Decidable p] (hc : p → Right c P) (hd : ¬ p → Right d P) :
    Right (if p then c else d) P := by
  by_cases hp : p
  · rw [if_pos hp]
    exact hc hp
  · rw [if_neg hp]
    exact hd hp

/-- A walk that found nothing hands over to the next. -/
theorem Right.andThen (hc : Right c P) (hd : P → Right d Q) : Right (c.andThen d) (P ∧ Q) := by
  rcases h : c with e | - | r
  · exact .error
  · have hp := hc.holds h
    exact (hd hp).congr ⟨fun hq => ⟨hp, hq⟩, And.right⟩
  · exact .found fun hpq => hc.fails r h hpq.1

theorem Right.orElse {d : ρ → Checked ε ρ} (hc : Right c P) (hd : ∀ r, ¬ P → Right (d r) Q) :
    Right (c.orElse d) (P ∨ Q) := by
  rcases h : c with e | - | r
  · exact .error
  · exact .pass (.inl (hc.holds h))
  · have hp := hc.fails r h
    exact (hd r hp).congr ⟨.inr, fun hpq => hpq.resolve_left hp⟩

theorem Right.all {P : α → Prop} (h : ∀ a ∈ l, Right (f a) (P a)) :
    Right (all f l) (∀ a ∈ l, P a) := by
  induction l with
  | nil =>
      refine .pass ?_
      intro a ha
      cases ha
  | cons a rest ih =>
      have hrest := ih fun b hb => h b (List.mem_cons_of_mem _ hb)
      exact ((h a List.mem_cons_self).andThen fun _ => hrest).congr List.forall_mem_cons.symm

/-- What an answer is worth, where there is one. -/
theorem Right.iff (h : Right c P) (ha : Answers c) : c = .ok none ↔ P := by
  refine ⟨h.holds, ?_⟩
  intro hp
  rcases hc : c with e | - | r
  · exact absurd hc (ha e)
  · rfl
  · exact absurd hp (h.fails r hc)

/-! ### Walks that answer -/

theorem answers_pass : Answers (pass : Checked ε ρ) := by
  intro e h
  cases h

theorem answers_found {r : ρ} : Answers (found r : Checked ε ρ) := by
  intro e h
  cases h

theorem Answers.andThen (hc : Answers c) (hd : Answers d) : Answers (c.andThen d) := by
  rcases h : c with e | - | r
  · exact absurd h (hc e)
  · exact hd
  · exact answers_found

theorem Answers.orElse {d : ρ → Checked ε ρ} (hc : Answers c) (hd : ∀ r, Answers (d r)) :
    Answers (c.orElse d) := by
  rcases h : c with e | - | r
  · exact absurd h (hc e)
  · exact answers_pass
  · exact hd r

/-! ### Walks that ask others

Two walks that are made alike: the one asks `ask i` where the other asks `ask' i`,
for the same things `i`, and what they find or raise of their own is the same. -/

section Made

variable {ι : Type*} (asks : ι → Prop) (own : ρ → Prop) (raises : Prop)
  (ask ask' : ι → Checked ε ρ)

inductive Alike : Checked ε ρ → Checked ε ρ → Prop
  | pass : Alike pass pass
  | found (r : ρ) (h : own r) : Alike (found r) (found r)
  | error (e : ε) (h : raises) : Alike (.error e) (.error e)
  | ask (i : ι) (h : asks i) : Alike (ask i) (ask' i)
  | andThen {c c' d d' : Checked ε ρ} (hc : Alike c c') (hd : Alike d d') :
      Alike (c.andThen d) (c'.andThen d')
  | orElse {c c' : Checked ε ρ} {d d' : ρ → Checked ε ρ} (hc : Alike c c')
      (hd : ∀ r, Alike (d r) (d' r)) : Alike (c.orElse d) (c'.orElse d')

variable {asks own raises ask ask'} {c' d' : Checked ε ρ}

theorem Alike.ite {p : Prop} [Decidable p] (hc : Alike asks own raises ask ask' c c')
    (hd : Alike asks own raises ask ask' d d') :
    Alike asks own raises ask ask' (if p then c else d) (if p then c' else d') := by
  by_cases hp : p
  · rw [if_pos hp, if_pos hp]
    exact hc
  · rw [if_neg hp, if_neg hp]
    exact hd

theorem Alike.all (h : ∀ a ∈ l, Alike asks own raises ask ask' (f a) (g a)) :
    Alike asks own raises ask ask' (all f l) (all g l) := by
  induction l with
  | nil => exact .pass
  | cons a rest ih =>
      exact .andThen (h a List.mem_cons_self) (ih fun b hb => h b (List.mem_cons_of_mem _ hb))

/-- A walk answers if all that it asks does. -/
theorem Alike.answers (h : Alike asks own raises ask ask' c c') (hraises : ¬ raises)
    (hask : ∀ i, asks i → Answers (ask i)) : Answers c := by
  induction h with
  | pass => exact answers_pass
  | found r _ => exact answers_found
  | error e he => exact absurd he hraises
  | ask i hi => exact hask i hi
  | andThen _ _ ihc ihd => exact ihc.andThen ihd
  | orElse _ _ ihc ihd => exact ihc.orElse ihd

/-- What a walk finds is its own, or was found where it asked. -/
theorem Alike.of_found (h : Alike asks own raises ask ask' c c') {r : ρ}
    (hr : c = .ok (some r)) : own r ∨ ∃ i, asks i ∧ ask i = .ok (some r) := by
  induction h generalizing r with
  | pass => cases hr
  | found r' h' =>
      obtain rfl := Option.some.inj (Except.ok.inj hr)
      exact .inl h'
  | error e _ => cases hr
  | ask i hi => exact .inr ⟨i, hi, hr⟩
  | @andThen c _ d _ _ _ ihc ihd =>
      rcases hc : c with e | - | r'
      · rw [hc] at hr
        cases hr
      · rw [hc] at hr
        exact ihd hr
      · rw [hc] at hr
        exact ihc (hc.trans hr)
  | @orElse c _ d _ _ _ ihc ihd =>
      rcases hc : c with e | - | r'
      · rw [hc] at hr
        cases hr
      · rw [hc] at hr
        cases hr
      · rw [hc] at hr
        exact ihd r' hr

/-- Two walks that are made alike come to the same, where all that they ask does. -/
theorem Alike.eq (h : Alike asks own raises ask ask' c c')
    (hask : ∀ i, asks i → ask i = ask' i) : c = c' := by
  induction h with
  | pass => rfl
  | found r _ => rfl
  | error e _ => rfl
  | ask i hi => exact hask i hi
  | andThen _ _ ihc ihd => rw [ihc, ihd]
  | orElse _ _ ihc ihd => rw [ihc, funext ihd]

end Made

end Checked
