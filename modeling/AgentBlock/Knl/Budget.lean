/-
AgentBlock/Knl/Budget.lean

The budget: a quota an owner grants, and the balance as a fold of the ledger.

There is no counter.  `foldBalance` reads the moves of a stream in order,
floors at zero at each step and saturates at the ends of the range; a stream
with no grant has no balance, which is not a balance of zero.

Main results:

* `foldBalance_ledger` — every kind outside the ledger moves nothing, so the
  fold of the whole stream and the fold of its `budget_*` events agree;
* `foldBalance_nonneg` — a balance is never negative;
* `foldBalance_eq_none` — there is no balance exactly where nothing was
  granted, and `lastGrant_eq_none` says the same of the last grant.
-/
import AgentBlock.Knl.Event
import Mathlib.Data.List.Induction

namespace AgentBlock.Knl

/-! ### Amounts -/

/-- A stored number as a whole one. -/
def whole : Json → I64
  | .num (.int n) => I64.clamp n
  | .num (.float q) => I64.clamp (q.num.tdiv q.den)
  | _ => 0

/-- A negative amount is a refund by another name. -/
def checkAmount (amount : I64) : Except KnlError Unit :=
  if amount < 0 then
    .error (.validation
      ("amount must be a non-negative whole number, got " ++ toString amount.val))
  else .ok ()

/-- The amount an event moves, read the way the fold reads it. -/
def amountOf (event : Current) : I64 :=
  I64.max ((dataField event FIELD_AMOUNT).elim 0 whole) 0

theorem amountOf_nonneg (event : Current) : 0 ≤ (amountOf event).val := by
  simp [amountOf]

/-! ### The fold -/

/-- One event's effect on the balance. -/
def foldStep (balance : Option I64) (event : Current) : Option I64 :=
  if event.kind = KIND_BUDGET_GRANTED then
    some ((balance.getD 0).saturatingAdd (amountOf event))
  else if event.kind = KIND_BUDGET_RESERVED ∨ event.kind = KIND_BUDGET_SPENT then
    balance.map fun b => I64.max (b.saturatingSub (amountOf event)) 0
  else balance

/-- The balance a log implies. -/
def foldBalance (events : List Current) : Option I64 := events.foldl foldStep none

/-- A string field of an event's `data`. -/
def stringField (event : Current) (field : String) : Option String :=
  (dataField event field).bind Json.asStr

/-- What an owner grants a scope. -/
structure BudgetGrant where
  amount : I64
  tag : Option String
  desc : Option String
  deriving DecidableEq

/-- What a parent hands to a child out of its own balance. -/
structure Allocation where
  amount : I64
  tag : Option String

/-- The grant an event records. -/
def grantOf (event : Current) : BudgetGrant where
  amount := amountOf event
  tag := stringField event FIELD_TAG
  desc := stringField event FIELD_DESC

/-- The grant a log records last. -/
def lastGrant (events : List Current) : Option BudgetGrant :=
  (events.reverse.find? fun event => event.kind = KIND_BUDGET_GRANTED).map grantOf

/-! ### Steps of the fold -/

section Fold

variable {events : List Current} {event : Current} {b : I64}

@[simp] theorem foldBalance_nil : foldBalance [] = none := rfl

theorem foldBalance_append (events more : List Current) :
    foldBalance (events ++ more) = more.foldl foldStep (foldBalance events) :=
  List.foldl_append

theorem foldBalance_concat (events : List Current) (event : Current) :
    foldBalance (events ++ [event]) = foldStep (foldBalance events) event := by
  simp [foldBalance_append]

theorem foldStep_other {balance : Option I64} (h : event.kind ∉ BUDGET_KINDS) :
    foldStep balance event = balance := by
  simp [BUDGET_KINDS] at h
  simp [foldStep, h]

theorem foldStep_refused {balance : Option I64} (h : event.kind = KIND_BUDGET_REFUSED) :
    foldStep balance event = balance := by
  simp [foldStep, h]

theorem foldStep_granted {balance : Option I64} (h : event.kind = KIND_BUDGET_GRANTED) :
    foldStep balance event =
      some ((balance.getD 0).saturatingAdd (amountOf event)) := by
  simp [foldStep, h]

theorem foldStep_move {balance : Option I64}
    (h : event.kind = KIND_BUDGET_RESERVED ∨ event.kind = KIND_BUDGET_SPENT) :
    foldStep balance event =
      balance.map fun b => I64.max (b.saturatingSub (amountOf event)) 0 := by
  rcases h with h | h <;> simp [foldStep, h]

/-- A step keeps the balance from being negative. -/
theorem foldStep_nonneg {balance : Option I64} (hb : ∀ b ∈ balance, 0 ≤ b.val) :
    ∀ b ∈ foldStep balance event, 0 ≤ b.val := by
  intro b hmem
  unfold foldStep at hmem
  split at hmem
  · obtain rfl := Option.mem_some_iff.mp hmem
    have h₀ : 0 ≤ (balance.getD 0).val := by
      cases balance with
      | none => simp
      | some c => exact hb c rfl
    have hn := amountOf_nonneg event
    rw [I64.val_saturatingAdd h₀ hn]
    omega
  · split at hmem
    · obtain ⟨c, -, rfl⟩ := Option.map_eq_some_iff.mp hmem
      simp
    · exact hb b hmem

/-- **A balance is never negative.** -/
theorem foldBalance_nonneg (events : List Current) :
    ∀ b ∈ foldBalance events, 0 ≤ b.val := by
  induction events using List.reverseRecOn with
  | nil => simp
  | append_singleton events event ih =>
      rw [foldBalance_concat]
      exact foldStep_nonneg ih

/-- A grant raises the balance by its amount, or to the greatest there is. -/
theorem fold_granted (hk : event.kind = KIND_BUDGET_GRANTED) :
    ∃ b, foldBalance (events ++ [event]) = some b ∧
      b.val = min (((foldBalance events).getD 0).val + (amountOf event).val)
        9223372036854775807 := by
  refine ⟨_, by rw [foldBalance_concat, foldStep_granted hk], ?_⟩
  refine I64.val_saturatingAdd ?_ (amountOf_nonneg event)
  cases hb : foldBalance events with
  | none => simp
  | some c => exact foldBalance_nonneg events c hb

/-- A deduction lowers the balance by its amount and stops at zero. -/
theorem fold_move (hk : event.kind = KIND_BUDGET_RESERVED ∨ event.kind = KIND_BUDGET_SPENT)
    (hb : foldBalance events = some b) :
    ∃ b', foldBalance (events ++ [event]) = some b' ∧
      b'.val = max (b.val - (amountOf event).val) 0 := by
  refine ⟨_, by rw [foldBalance_concat, foldStep_move hk, hb]; rfl, ?_⟩
  rw [I64.val_max, I64.val_saturatingSub (foldBalance_nonneg events b hb)
    (amountOf_nonneg event), I64.val_zero]

/-- The fold passes over everything that is not in the ledger. -/
theorem foldl_ledger (kinds : List String) (hk : ∀ k ∈ BUDGET_KINDS, k ∈ kinds)
    (events : List Current) (balance : Option I64) :
    (events.filter fun e => e.kind ∈ kinds).foldl foldStep balance =
      events.foldl foldStep balance := by
  induction events generalizing balance with
  | nil => rfl
  | cons e rest ih =>
      by_cases he : e.kind ∈ kinds
      · simp [he, ih]
      · have hnot : e.kind ∉ BUDGET_KINDS := fun h => he (hk _ h)
        simp [he, ih, foldStep_other hnot]

/-- **The fold of a selection that has the ledger is the fold of the stream.** -/
theorem foldBalance_ledger (kinds : List String) (hk : ∀ k ∈ BUDGET_KINDS, k ∈ kinds)
    (events : List Current) :
    foldBalance (events.filter fun e => e.kind ∈ kinds) = foldBalance events :=
  foldl_ledger kinds hk events none

end Fold

/-! ### Grants -/

section Grants

variable {events : List Current}

/-- Something was granted. -/
def Granted (events : List Current) : Prop := ∃ e ∈ events, e.kind = KIND_BUDGET_GRANTED

instance : Decidable (Granted events) := List.decidableBEx _ events

theorem Granted.append_left {more : List Current} (h : Granted events) :
    Granted (events ++ more) := by
  obtain ⟨e, he, hk⟩ := h
  exact ⟨e, List.mem_append_left _ he, hk⟩

theorem lastGrant_eq_none : lastGrant events = none ↔ ¬ Granted events := by
  simp [lastGrant, Granted]

/-- **A balance is there exactly where something was granted.** -/
theorem foldBalance_eq_none : foldBalance events = none ↔ ¬ Granted events := by
  induction events using List.reverseRecOn with
  | nil => simp [Granted]
  | append_singleton events event ih =>
      rw [foldBalance_concat]
      by_cases hk : event.kind = KIND_BUDGET_GRANTED
      · have : Granted (events ++ [event]) := ⟨event, by simp, hk⟩
        simp [foldStep_granted hk, this]
      · have hsame : Granted (events ++ [event]) ↔ Granted events := by
          unfold Granted
          simp only [List.mem_append, List.mem_singleton]
          constructor
          · rintro ⟨e, he | rfl, hg⟩
            · exact ⟨e, he, hg⟩
            · exact absurd hg hk
          · rintro ⟨e, he, hg⟩
            exact ⟨e, Or.inl he, hg⟩
        rw [hsame, ← ih]
        unfold foldStep
        rw [if_neg hk]
        split <;> simp

theorem granted_of_lastGrant {grant : BudgetGrant} (h : lastGrant events = some grant) :
    Granted events := by
  by_contra hn
  rw [lastGrant_eq_none.mpr hn] at h
  cases h

theorem Granted.balance (h : Granted events) : ∃ b, foldBalance events = some b :=
  Option.ne_none_iff_exists'.mp fun hn => foldBalance_eq_none.mp hn h

/-- The last grant is read off the ledger as off the whole stream. -/
theorem lastGrant_ledger (kinds : List String) (hk : KIND_BUDGET_GRANTED ∈ kinds)
    (events : List Current) :
    lastGrant (events.filter fun e => e.kind ∈ kinds) = lastGrant events := by
  unfold lastGrant
  rw [← List.filter_reverse, List.find?_filter]
  congr 2
  funext e
  by_cases he : e.kind = KIND_BUDGET_GRANTED
  · simpa [he] using hk
  · simp [he]

end Grants

end AgentBlock.Knl
