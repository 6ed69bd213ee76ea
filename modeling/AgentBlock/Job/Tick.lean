/-
AgentBlock/Job/Tick.lean

The decision of a tick: which jobs start now, and which do not.

`tick_decides` — what starts is the first jobs, in the order of their declarations,
of those that are asked for or due and have no live run, as many as there is room
for; and every other job that is asked for or due is skipped, for the reason there is.
-/
import AgentBlock.Job.Read

namespace AgentBlock.Job

/-! ### Plans -/

/-- What a tick reads of a declaration, `every` in seconds. -/
structure Declared where
  name : String
  every : Option ℚ
  deriving DecidableEq

inductive StartReason where
  | requested
  | due
  deriving DecidableEq

inductive SkipReason where
  | overlapping
  | maxRuns
  deriving DecidableEq

def SkipReason.text : SkipReason → String
  | overlapping => "overlapping"
  | maxRuns => "max_runs"

structure Start where
  decl : Declared
  reason : StartReason
  requested : Option ℕ
  deriving DecidableEq

structure Skip where
  job : String
  reason : SkipReason
  requested : Option ℕ
  deriving DecidableEq

structure Plan where
  start : List Start
  skip : List Skip
  deriving DecidableEq

section

variable (facts : Facts) (now : ℚ) (maxRuns : ℕ)

/-- The newest pending request of a job. -/
def newestRequest (job : String) : Option Request :=
  (facts.requested.filter fun r => r.job = some job).getLast?

/-- Why a job is to start, and the request that it answers. -/
def wanted (decl : Declared) : Option (StartReason × Option ℕ) :=
  match newestRequest facts decl.name with
  | some request => some (.requested, some request.seq)
  | none =>
      match decl.every with
      | none => none
      | some every =>
          match facts.ended.lookup decl.name with
          | none => some (.due, none)
          | some ended => if every ≤ now - ended then some (.due, none) else none

/-- The walk over the declarations, with so many runs live. -/
def tickFrom : List Declared → ℕ → Plan
  | [], _ => ⟨[], []⟩
  | decl :: rest, live =>
      match wanted facts now decl with
      | none => tickFrom rest live
      | some (reason, requested) =>
          if (facts.live.lookup decl.name).isSome then
            { tickFrom rest live with
              skip := ⟨decl.name, .overlapping, requested⟩ :: (tickFrom rest live).skip }
          else if maxRuns ≤ live then
            { tickFrom rest live with
              skip := ⟨decl.name, .maxRuns, requested⟩ :: (tickFrom rest live).skip }
          else
            -- a run that is started here counts against the room of the jobs after it
            { tickFrom rest (live + 1) with
              start := ⟨decl, reason, requested⟩ :: (tickFrom rest (live + 1)).start }

def tick (jobs : List Declared) : Plan := tickFrom facts now maxRuns jobs facts.liveCount

/-! ### What is decided -/

/-- A job is to start, and has no live run. -/
def eligible (decl : Declared) : Bool :=
  (wanted facts now decl).isSome && (facts.live.lookup decl.name).isNone

/-- How a job that is to start is started. -/
def startOf (decl : Declared) : Option Start :=
  (wanted facts now decl).map fun w => ⟨decl, w.1, w.2⟩

/-- A job is to start, and has a live run. -/
def overlapping (decl : Declared) : Bool :=
  (wanted facts now decl).isSome && (facts.live.lookup decl.name).isSome

/-- How a job that is to start is skipped. -/
def skipOf (reason : SkipReason) (decl : Declared) : Option Skip :=
  (wanted facts now decl).map fun w => ⟨decl.name, reason, w.2⟩

end

variable {facts : Facts} {now : ℚ} {maxRuns : ℕ}

/-- What becomes of the first of the declarations. -/
theorem tickFrom_cons (decl : Declared) (rest : List Declared) (live : ℕ) :
    (eligible facts now decl = false ∧ overlapping facts now decl = false ∧
      tickFrom facts now maxRuns (decl :: rest) live = tickFrom facts now maxRuns rest live) ∨
    (eligible facts now decl = false ∧ overlapping facts now decl = true ∧
      ∃ sk, skipOf facts now .overlapping decl = some sk ∧ sk.reason = .overlapping ∧
        tickFrom facts now maxRuns (decl :: rest) live =
          { tickFrom facts now maxRuns rest live with
            skip := sk :: (tickFrom facts now maxRuns rest live).skip }) ∨
    (eligible facts now decl = true ∧ overlapping facts now decl = false ∧ maxRuns ≤ live ∧
      ∃ sk, skipOf facts now .maxRuns decl = some sk ∧ sk.reason = .maxRuns ∧
        tickFrom facts now maxRuns (decl :: rest) live =
          { tickFrom facts now maxRuns rest live with
            skip := sk :: (tickFrom facts now maxRuns rest live).skip }) ∨
    (eligible facts now decl = true ∧ overlapping facts now decl = false ∧ live < maxRuns ∧
      ∃ s, startOf facts now decl = some s ∧
        tickFrom facts now maxRuns (decl :: rest) live =
          { tickFrom facts now maxRuns rest (live + 1) with
            start := s :: (tickFrom facts now maxRuns rest (live + 1)).start }) := by
  cases hwanted : wanted facts now decl with
  | none => exact .inl ⟨by simp [eligible, hwanted], by simp [overlapping, hwanted],
      by simp only [tickFrom, hwanted]⟩
  | some w =>
      cases hlive : facts.live.lookup decl.name with
      | some run =>
          refine .inr (.inl ⟨by simp [eligible, hlive], by simp [overlapping, hwanted, hlive],
            ⟨decl.name, .overlapping, w.2⟩, by simp [skipOf, hwanted], rfl, ?_⟩)
          simp only [tickFrom, hwanted, hlive, Option.isSome_some, if_true]
      | none =>
          have heligible : eligible facts now decl = true := by simp [eligible, hwanted, hlive]
          have hover : overlapping facts now decl = false := by simp [overlapping, hlive]
          by_cases hfull : maxRuns ≤ live
          · refine .inr (.inr (.inl ⟨heligible, hover, hfull,
              ⟨decl.name, .maxRuns, w.2⟩, by simp [skipOf, hwanted], rfl, ?_⟩))
            simp only [tickFrom, hwanted, hlive, Option.isSome_none, Bool.false_eq_true, if_false,
              if_pos hfull]
          · refine .inr (.inr (.inr ⟨heligible, hover, Nat.lt_of_not_le hfull,
              ⟨decl, w.1, w.2⟩, by simp [startOf, hwanted], ?_⟩))
            simp only [tickFrom, hwanted, hlive, Option.isSome_none, Bool.false_eq_true, if_false,
              if_neg hfull]

/-- What starts is the first that are eligible, as many as there is room for. -/
theorem tickFrom_start (jobs : List Declared) (live : ℕ) :
    (tickFrom facts now maxRuns jobs live).start =
      ((jobs.filter (eligible facts now)).take (maxRuns - live)).filterMap (startOf facts now) := by
  induction jobs generalizing live with
  | nil => simp [tickFrom]
  | cons decl rest ih =>
      obtain ⟨hel, -, heq⟩ | ⟨hel, -, sk, -, -, heq⟩ | ⟨hel, -, hfull, sk, -, -, heq⟩ |
        ⟨hel, -, hroom, s, hs, heq⟩ := @tickFrom_cons facts now maxRuns decl rest live
      · rw [heq, List.filter_cons_of_neg (by simp [hel]), ih live]
      · rw [heq, List.filter_cons_of_neg (by simp [hel]), ← ih live]
      · -- There is no room now, and none later.
        have hnone : maxRuns - live = 0 := Nat.sub_eq_zero_of_le hfull
        have hrest := ih live
        rw [hnone, List.take_zero] at hrest
        rw [heq, hnone, List.take_zero]
        exact hrest
      · have hsucc : maxRuns - live = (maxRuns - (live + 1)) + 1 := by omega
        rw [heq, List.filter_cons_of_pos hel, hsucc, List.take_succ_cons, List.filterMap_cons, hs]
        show s :: (tickFrom facts now maxRuns rest (live + 1)).start = _
        rw [ih (live + 1)]

/-- What finds no room is the rest of them. -/
theorem tickFrom_full (jobs : List Declared) (live : ℕ) :
    (tickFrom facts now maxRuns jobs live).skip.filter (·.reason = .maxRuns) =
      ((jobs.filter (eligible facts now)).drop (maxRuns - live)).filterMap
        (skipOf facts now .maxRuns) := by
  induction jobs generalizing live with
  | nil => simp [tickFrom]
  | cons decl rest ih =>
      obtain ⟨hel, -, heq⟩ | ⟨hel, -, sk, -, hreason, heq⟩ | ⟨hel, -, hfull, sk, hsk, hreason, heq⟩ |
        ⟨hel, -, hroom, s, -, heq⟩ := @tickFrom_cons facts now maxRuns decl rest live
      · rw [heq, List.filter_cons_of_neg (by simp [hel]), ih live]
      · rw [heq, List.filter_cons_of_neg (by simp [hreason]),
          List.filter_cons_of_neg (by simp [hel]), ih live]
      · have hnone : maxRuns - live = 0 := Nat.sub_eq_zero_of_le hfull
        have hrest := ih live
        rw [hnone, List.drop_zero] at hrest
        rw [heq, List.filter_cons_of_pos (by simp [hreason]), List.filter_cons_of_pos hel, hnone,
          List.drop_zero, List.filterMap_cons, hsk, hrest]
      · have hsucc : maxRuns - live = (maxRuns - (live + 1)) + 1 := by omega
        rw [heq, List.filter_cons_of_pos hel, hsucc, List.drop_succ_cons]
        exact ih (live + 1)

/-- What overlaps is skipped, whatever the room. -/
theorem tickFrom_overlapping (jobs : List Declared) (live : ℕ) :
    (tickFrom facts now maxRuns jobs live).skip.filter (·.reason = .overlapping) =
      (jobs.filter (overlapping facts now)).filterMap (skipOf facts now .overlapping) := by
  induction jobs generalizing live with
  | nil => simp [tickFrom]
  | cons decl rest ih =>
      obtain ⟨-, hov, heq⟩ | ⟨-, hov, sk, hsk, hreason, heq⟩ | ⟨-, hov, -, sk, -, hreason, heq⟩ |
        ⟨-, hov, -, s, -, heq⟩ := @tickFrom_cons facts now maxRuns decl rest live
      · rw [heq, List.filter_cons_of_neg (by simp [hov]), ih live]
      · rw [heq, List.filter_cons_of_pos (by simp [hreason]), List.filter_cons_of_pos hov,
          List.filterMap_cons, hsk, ih live]
      · rw [heq, List.filter_cons_of_neg (by simp [hreason]),
          List.filter_cons_of_neg (by simp [hov]), ih live]
      · rw [heq, List.filter_cons_of_neg (by simp [hov])]
        exact ih (live + 1)

/-- A tick starts the first of the jobs that are asked for or due and have no
live run, as many as there is room for; it skips the rest of them for the
room, and those with a live run for that. -/
theorem tick_decides (jobs : List Declared) :
    let room := maxRuns - facts.liveCount
    let plan := tick facts now maxRuns jobs
    plan.start =
        ((jobs.filter (eligible facts now)).take room).filterMap (startOf facts now) ∧
      plan.skip.filter (·.reason = .maxRuns) =
        ((jobs.filter (eligible facts now)).drop room).filterMap (skipOf facts now .maxRuns) ∧
      plan.skip.filter (·.reason = .overlapping) =
        (jobs.filter (overlapping facts now)).filterMap (skipOf facts now .overlapping) :=
  ⟨tickFrom_start jobs _, tickFrom_full jobs _, tickFrom_overlapping jobs _⟩

end AgentBlock.Job
