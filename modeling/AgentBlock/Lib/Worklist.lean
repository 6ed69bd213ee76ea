/-
AgentBlock/Lib/Worklist.lean

What is reached from a list, one element at a time.

A queue of elements is worked off from its head: what an element leads to and has
not been met goes to the end of it.  Where all that can be met is in one finite
list, as many steps as it is long meet everything:

    y ∈ reached next fuel start  ↔  ∃ x ∈ start, x leads to y

and meet nothing twice.
-/
import Mathlib.Data.List.Dedup
import Mathlib.Data.List.Perm.Subperm
import Mathlib.Logic.Relation

namespace Worklist

variable {α : Type*} [DecidableEq α] (next : α → List α)

/-- What has not been met, once each. -/
def unmet (met xs : List α) : List α := (xs.filter fun x => x ∉ met).dedup

/-- Work off a queue. -/
def walk : Nat → List α → List α → List α
  | 0, done, _ => done
  | _ + 1, done, [] => done
  | n + 1, done, x :: queue =>
      walk n (done ++ [x]) (queue ++ unmet (done ++ x :: queue) (next x))

/-- All that is met from a list. -/
def reached (fuel : Nat) (start : List α) : List α := walk next fuel [] start.dedup

/-- One element leads to another. -/
def Leads : α → α → Prop := Relation.ReflTransGen fun x y => y ∈ next x

/-- What is so at every step. -/
structure Walking (start all done queue : List α) : Prop where
  nodup : (done ++ queue).Nodup
  known : ∀ x ∈ done ++ queue, x ∈ all
  begun : ∀ x ∈ start, x ∈ done ++ queue
  led : ∀ y ∈ done ++ queue, ∃ x ∈ start, Leads next x y
  closed : ∀ x ∈ done, ∀ y ∈ next x, y ∈ done ++ queue

variable {next} {start all done queue xs : List α} {x : α}

theorem mem_unmet : x ∈ unmet done xs ↔ x ∈ xs ∧ x ∉ done := by
  rw [unmet, List.mem_dedup, List.mem_filter, decide_eq_true_eq]

theorem walking_start (hstart : ∀ x ∈ start, x ∈ all) : Walking next start all [] start.dedup where
  nodup := List.nodup_dedup start
  known x hx := hstart x (List.mem_dedup.mp hx)
  begun _ := List.mem_dedup.mpr
  led y hy := ⟨y, List.mem_dedup.mp hy, .refl⟩
  closed := nofun

/-- One step. -/
theorem Walking.step (hall : ∀ x ∈ all, ∀ y ∈ next x, y ∈ all)
    (h : Walking next start all done (x :: queue)) :
    Walking next start all (done ++ [x]) (queue ++ unmet (done ++ x :: queue) (next x)) := by
  have happend : done ++ [x] ++ (queue ++ unmet (done ++ x :: queue) (next x)) =
      (done ++ x :: queue) ++ unmet (done ++ x :: queue) (next x) := by simp
  have hx : x ∈ done ++ x :: queue := List.mem_append_right _ List.mem_cons_self
  refine ⟨?_, ?_, ?_, ?_, ?_⟩
  all_goals rw [happend]
  · refine List.nodup_append.mpr ⟨h.nodup, List.nodup_dedup _, fun a ha b hb hab => ?_⟩
    exact (mem_unmet.mp hb).2 (hab ▸ ha)
  · intro y hy
    rcases List.mem_append.mp hy with hy | hy
    · exact h.known y hy
    · exact hall x (h.known x hx) y (mem_unmet.mp hy).1
  · exact fun y hy => List.mem_append_left _ (h.begun y hy)
  · intro y hy
    rcases List.mem_append.mp hy with hy | hy
    · exact h.led y hy
    · obtain ⟨z, hz, hlead⟩ := h.led x hx
      exact ⟨z, hz, hlead.tail (mem_unmet.mp hy).1⟩
  · intro z hz y hy
    rcases List.mem_append.mp hz with hz | hz
    · exact List.mem_append_left _ (h.closed z hz y hy)
    · obtain rfl := List.mem_singleton.mp hz
      by_cases hmet : y ∈ done ++ z :: queue
      · exact List.mem_append_left _ hmet
      · exact List.mem_append_right _ (mem_unmet.mpr ⟨hy, hmet⟩)

/-- Enough steps work the queue off. -/
theorem Walking.walk (hall : ∀ x ∈ all, ∀ y ∈ next x, y ∈ all)
    (h : Walking next start all done queue) {fuel : Nat} (hfuel : all.length < fuel + done.length) :
    Walking next start all (walk next fuel done queue) [] := by
  induction fuel generalizing done queue with
  | zero =>
      -- more was met than there is
      have hle : (done ++ queue).length ≤ all.length :=
        (List.subperm_of_subset h.nodup h.known).length_le
      rw [List.length_append] at hle
      omega
  | succ fuel ih =>
      cases queue with
      | nil => exact h
      | cons x queue =>
          refine ih (h.step hall) ?_
          rw [List.length_append, List.length_singleton]
          omega

/-- **All that is reached is met, and nothing else.** -/
theorem mem_reached_iff {fuel : Nat} {y : α} (hstart : ∀ x ∈ start, x ∈ all)
    (hall : ∀ x ∈ all, ∀ y ∈ next x, y ∈ all) (hfuel : all.length < fuel) :
    y ∈ reached next fuel start ↔ ∃ x ∈ start, Leads next x y := by
  have h : Walking next start all (reached next fuel start) [] :=
    (walking_start hstart).walk hall (by simpa using hfuel)
  have happend : reached next fuel start ++ [] = reached next fuel start := List.append_nil _
  constructor
  · exact fun hy => h.led y (happend.symm ▸ hy)
  · rintro ⟨x, hx, hlead⟩
    induction hlead with
    | refl => exact happend ▸ h.begun x hx
    | tail _ hstep ih => exact happend ▸ h.closed _ ih _ hstep

/-- **Nothing is met twice.** -/
theorem nodup_reached {fuel : Nat} (hstart : ∀ x ∈ start, x ∈ all)
    (hall : ∀ x ∈ all, ∀ y ∈ next x, y ∈ all) (hfuel : all.length < fuel) :
    (reached next fuel start).Nodup := by
  have h : Walking next start all (reached next fuel start) [] :=
    (walking_start hstart).walk hall (by simpa using hfuel)
  exact List.append_nil (reached next fuel start) ▸ h.nodup

end Worklist
