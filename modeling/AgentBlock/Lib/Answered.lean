/-
AgentBlock/Lib/Answered.lean

A record whose entries ask and answer.

An entry that asks stands until one after it answers.  Read by the entries'
times, it stands where none at its time or later does, so that an answer before
it in the same moment is taken for one after it.

Main results:

* `standingByTime_sublist` — what is read to stand does;
* `standingByTime_eq_iff` — and nothing else does, exactly where no such answer
  is.
-/
import Mathlib.Data.List.Basic

namespace Answered

variable {α : Type*} {asks : α → Prop} [DecidablePred asks] {answers : α → α → Prop}
  [DecidableRel answers] {time : α → ℕ} {xs : List α}

section Defs

variable (asks answers time)

/-- The entries that ask, and that none after them answers. -/
def standing : List α → List α
  | [] => []
  | x :: xs => if asks x ∧ ¬ ∃ y ∈ xs, answers y x then x :: standing xs else standing xs

/-- An entry that asks, and that none of its time or later answers. -/
def StandsByTime (xs : List α) (x : α) : Prop :=
  asks x ∧ ¬ ∃ y ∈ xs, answers y x ∧ time x ≤ time y

instance (xs : List α) : DecidablePred (StandsByTime asks answers time xs) := fun x => by
  unfold StandsByTime
  infer_instance

def standingByTime (xs : List α) : List α := xs.filter (StandsByTime asks answers time xs)

/-- An entry that stands has no answer before it in its own moment. -/
def NoneBefore (before : List α) (x : α) (after : List α) : Prop :=
  asks x → (¬ ∃ y ∈ after, answers y x) → ∀ y ∈ before, answers y x → time y < time x

end Defs

omit [DecidablePred asks] [DecidableRel answers] in
/-- Where an entry is split off: here, or further on. -/
theorem noneBefore_cons (before : List α) (x : α) :
    (∀ mid y after, x :: xs = mid ++ y :: after →
      NoneBefore asks answers time (before ++ mid) y after) ↔
        NoneBefore asks answers time before x xs ∧
          ∀ mid y after, xs = mid ++ y :: after →
            NoneBefore asks answers time ((before ++ [x]) ++ mid) y after := by
  constructor
  · intro h
    refine ⟨by simpa using h [] x xs rfl, fun mid y after hxs => ?_⟩
    simpa using h (x :: mid) y after (by rw [hxs]; rfl)
  · rintro ⟨hhere, hlater⟩ mid y after hcons
    cases mid with
    | nil =>
        obtain ⟨rfl, rfl⟩ := List.cons_eq_cons.mp hcons
        simpa using hhere
    | cons x' mid =>
        obtain ⟨rfl, hxs⟩ := List.cons_eq_cons.mp hcons
        simpa using hlater mid y after hxs

omit [DecidablePred asks] [DecidableRel answers] in
/-- The times of the rest do not go back, so that what answers there is seen. -/
theorem standsByTime_head (before : List α) {x : α} (hself : ∀ x, asks x → ¬ answers x x)
    (hlater : ∀ y ∈ xs, time x ≤ time y) :
    StandsByTime asks answers time (before ++ x :: xs) x ↔
      (asks x ∧ ¬ ∃ y ∈ xs, answers y x) ∧ NoneBefore asks answers time before x xs := by
  constructor
  · rintro ⟨hasks, hno⟩
    refine ⟨⟨hasks, ?_⟩, fun _ _ y hy hanswers => ?_⟩
    · rintro ⟨y, hy, hanswers⟩
      exact hno ⟨y, List.mem_append_right _ (List.mem_cons_of_mem _ hy), hanswers, hlater y hy⟩
    · by_contra hle
      exact hno ⟨y, List.mem_append_left _ hy, hanswers, Nat.not_lt.mp hle⟩
  · rintro ⟨⟨hasks, hnone⟩, hbefore⟩
    refine ⟨hasks, ?_⟩
    rintro ⟨y, hy, hanswers, hle⟩
    rcases List.mem_append.mp hy with hy | hy
    · exact absurd hle (Nat.not_le.mpr (hbefore hasks hnone y hy hanswers))
    · rcases List.mem_cons.mp hy with rfl | hy
      · exact hself y hasks hanswers
      · exact hnone ⟨y, hy, hanswers⟩

/-- The rest of a record, read by the times of all of it. -/
theorem filter_sublist (hself : ∀ x, asks x → ¬ answers x x) (before : List α)
    (htime : (before ++ xs).Pairwise fun a b => time a ≤ time b) :
    (xs.filter (StandsByTime asks answers time (before ++ xs))).Sublist
        (standing asks answers xs) ∧
      (xs.filter (StandsByTime asks answers time (before ++ xs)) = standing asks answers xs ↔
        ∀ mid x after, xs = mid ++ x :: after →
          NoneBefore asks answers time (before ++ mid) x after) := by
  induction xs generalizing before with
  | nil =>
      refine ⟨List.Sublist.refl _, iff_of_true rfl fun mid x after h => ?_⟩
      exact absurd h.symm (by simp)
  | cons x xs ih =>
      have hwhole : before ++ x :: xs = (before ++ [x]) ++ xs := by simp
      obtain ⟨hsub, hiff⟩ := ih (before ++ [x]) (hwhole ▸ htime)
      have hlater : ∀ y ∈ xs, time x ≤ time y :=
        (List.pairwise_cons.mp (List.pairwise_append.mp htime).2.1).1
      have hread := standsByTime_head before hself hlater
      rw [← hwhole] at hsub hiff
      rw [noneBefore_cons, ← hiff, standing, List.filter_cons]
      by_cases hstands : asks x ∧ ¬ ∃ y ∈ xs, answers y x
      · rw [if_pos hstands]
        by_cases hclear : NoneBefore asks answers time before x xs
        · rw [if_pos (decide_eq_true (hread.mpr ⟨hstands, hclear⟩)), List.cons_inj_right]
          exact ⟨hsub.cons_cons x, (and_iff_right hclear).symm⟩
        · -- taken to be answered, by one before it
          rw [if_neg fun h => hclear (hread.mp (of_decide_eq_true h)).2]
          refine ⟨hsub.cons x, iff_of_false (fun heq => ?_) fun h => hclear h.1⟩
          have hlen := hsub.length_le
          rw [heq, List.length_cons] at hlen
          exact Nat.not_succ_le_self _ hlen
      · rw [if_neg hstands, if_neg fun h => hstands (hread.mp (of_decide_eq_true h)).1]
        exact ⟨hsub, (and_iff_right fun hasks hnone => absurd ⟨hasks, hnone⟩ hstands).symm⟩

/-- What is read to stand does. -/
theorem standingByTime_sublist (hself : ∀ x, asks x → ¬ answers x x)
    (htime : xs.Pairwise fun a b => time a ≤ time b) :
    (standingByTime asks answers time xs).Sublist (standing asks answers xs) :=
  (filter_sublist hself [] htime).1

/-- **What stands is what is read to**, exactly where no answer is before what
stands in its own moment. -/
theorem standingByTime_eq_iff (hself : ∀ x, asks x → ¬ answers x x)
    (htime : xs.Pairwise fun a b => time a ≤ time b) :
    standingByTime asks answers time xs = standing asks answers xs ↔
      ∀ before x after, xs = before ++ x :: after →
        NoneBefore asks answers time before x after :=
  (filter_sublist hself [] htime).2

end Answered
