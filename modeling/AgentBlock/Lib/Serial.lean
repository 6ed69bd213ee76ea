/-
AgentBlock/Lib/Serial.lean

A server of one thing at a time: what arrives waits in order, the first of those
waiting is taken up when nothing else is, and what was taken up is finished
before the next one is.

`history_eq` — over a whole run, what was finished, what is taken up and what
waits are together exactly what arrived, in the order it arrived in.
-/
import AgentBlock.Lib.Steps
import Mathlib.Data.List.Basic

universe u v

/-- A server: what waits, what is taken up, and what was finished with what. -/
structure Serial (α : Type u) (β : Type v) where
  waiting : List α := []
  busy : Option α := none
  served : List (α × β) := []

namespace Serial

variable {α : Type u} {β : Type v} {s s' : Serial α β} {a : α} {b : β}

def arrive (s : Serial α β) (a : α) : Serial α β := { s with waiting := s.waiting ++ [a] }

/-- The first that waits is taken up, if nothing is. -/
def start (s : Serial α β) : Option (Serial α β) :=
  match s.busy, s.waiting with
  | none, a :: rest => some { s with waiting := rest, busy := some a }
  | _, _ => none

def finish (s : Serial α β) (b : β) : Option (Serial α β) :=
  s.busy.map fun a => { s with busy := none, served := s.served ++ [(a, b)] }

/-- What is neither finished nor waiting. -/
def begun (s : Serial α β) : List α := s.served.map Prod.fst ++ s.busy.toList

/-- All that a server has, in the order it is or was taken up in. -/
def history (s : Serial α β) : List α := s.begun ++ s.waiting

/-! ### One step -/

@[simp] theorem begun_arrive : (s.arrive a).begun = s.begun := rfl

@[simp] theorem busy_arrive : (s.arrive a).busy = s.busy := rfl

@[simp] theorem served_arrive : (s.arrive a).served = s.served := rfl

@[simp] theorem waiting_arrive : (s.arrive a).waiting = s.waiting ++ [a] := rfl

theorem start_eq_some : s.start = some s' ↔
    ∃ a rest, s.busy = none ∧ s.waiting = a :: rest ∧
      s' = { s with waiting := rest, busy := some a } := by
  rcases s with ⟨- | ⟨a, rest⟩, - | b, served⟩ <;> simp [start, eq_comm]

theorem finish_eq_some : s.finish b = some s' ↔
    ∃ a, s.busy = some a ∧ s' = { s with busy := none, served := s.served ++ [(a, b)] } := by
  rw [finish, Option.map_eq_some_iff]
  constructor
  · rintro ⟨a, ha, rfl⟩
    exact ⟨a, ha, rfl⟩
  · rintro ⟨a, ha, rfl⟩
    exact ⟨a, ha, rfl⟩

@[simp] theorem history_arrive : (s.arrive a).history = s.history ++ [a] := by
  simp [history]

theorem history_start (h : s.start = some s') : s'.history = s.history := by
  obtain ⟨a, rest, hbusy, hwaiting, rfl⟩ := start_eq_some.mp h
  simp [history, begun, hbusy, hwaiting]

theorem begun_finish (h : s.finish b = some s') : s'.begun = s.begun := by
  obtain ⟨a, hbusy, rfl⟩ := finish_eq_some.mp h
  simp [begun, hbusy]

theorem history_finish (h : s.finish b = some s') : s'.history = s.history := by
  have hwaiting : s'.waiting = s.waiting := by
    obtain ⟨a, -, rfl⟩ := finish_eq_some.mp h
    rfl
  rw [history, history, begun_finish h, hwaiting]

/-! ### A run -/

/-- What can happen to a server. -/
inductive Act (α : Type u) (β : Type v) where
  | arrive (a : α)
  | start
  | finish (b : β)

def step (s : Serial α β) : Act α β → Option (Serial α β)
  | .arrive a => some (s.arrive a)
  | .start => s.start
  | .finish b => s.finish b

/-- What arrived, of all that happened. -/
def arrivals : List (Act α β) → List α
  | [] => []
  | .arrive a :: acts => a :: arrivals acts
  | .start :: acts => arrivals acts
  | .finish _ :: acts => arrivals acts

theorem arrivals_append {as bs : List (Act α β)} :
    arrivals (as ++ bs) = arrivals as ++ arrivals bs := by
  induction as with
  | nil => rfl
  | cons act as ih => cases act <;> simp [arrivals, ih]

/-- **Nothing is lost, doubled or overtaken**: what a server has after a run is
what it had, and then what arrived. -/
theorem history_eq {acts : List (Act α β)} (h : Steps.after step s acts = some s') :
    s'.history = s.history ++ arrivals acts := by
  induction acts generalizing s with
  | nil =>
      obtain rfl := Option.some.inj h
      simp [arrivals]
  | cons act acts ih =>
      obtain ⟨t, ht, hrest⟩ := Option.bind_eq_some_iff.mp h
      rw [ih hrest]
      cases act with
      | arrive a =>
          obtain rfl := Option.some.inj ht
          simp [arrivals]
      | start => rw [history_start ht, arrivals]
      | finish b => rw [history_finish ht, arrivals]

end Serial
