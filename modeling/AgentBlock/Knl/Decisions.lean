/-
AgentBlock/Knl/Decisions.lean

What each operation a session issues decides, and what it is answered.

Every operation has one inversion lemma, `*_cases`: the store failed and
nothing was written, or the decision found what it found, gave this answer
and left exactly these rows.

Main results:

* `reserve_cases`, `spend_cases`, `resumeGrant_cases` — the moves of one
  ledger;
* `open_cases`, `close_cases` — the boundaries;
* `allocation_cases` — the move between two ledgers.
-/
import AgentBlock.Knl.Calls

namespace AgentBlock.Knl

open Interleaving

/-! ### What a decision is shown -/

section Selected

variable (events : List Current)

theorem selected_all : selected events none 0 none = events := by
  simp [selected]

theorem selected_kinds (kinds : List String) :
    selected events (some kinds) 0 none = events.filter fun e => e.kind ∈ kinds := by
  simp [selected]

theorem selected_first : selected events none 0 (some 1) = [] ↔ events = [] := by
  simp [selected]

@[simp] theorem foldBalance_budgetKinds :
    foldBalance (selected events (some BUDGET_KINDS) 0 none) = foldBalance events := by
  rw [selected_kinds]
  exact foldBalance_ledger BUDGET_KINDS (fun _ h => h) events

@[simp] theorem lastGrant_budgetKinds :
    lastGrant (selected events (some BUDGET_KINDS) 0 none) = lastGrant events := by
  rw [selected_kinds]
  exact lastGrant_ledger BUDGET_KINDS (by simp [BUDGET_KINDS]) events

@[simp] theorem foldBalance_allocationKinds :
    foldBalance (selected events (some ALLOCATION_KINDS) 0 none) = foldBalance events := by
  rw [selected_kinds]
  refine foldBalance_ledger ALLOCATION_KINDS (fun k hk => ?_) events
  simp only [BUDGET_KINDS, ALLOCATION_KINDS, List.mem_cons, List.not_mem_nil, or_false] at hk ⊢
  tauto

/-- A stream carries its ending. -/
def Ended (events : List Current) : Prop := ∃ e ∈ events, e.kind = KIND_SESSION_CLOSED

instance : Decidable (Ended events) := List.decidableBEx _ events

theorem ended_allocationKinds :
    ((selected events (some ALLOCATION_KINDS) 0 none).any
      fun e => e.kind = KIND_SESSION_CLOSED) = true ↔ Ended events := by
  rw [selected_kinds]
  simp [Ended, ALLOCATION_KINDS]
  constructor
  · rintro ⟨e, he, -, hk⟩
    exact ⟨e, he, hk⟩
  · rintro ⟨e, he, hk⟩
    exact ⟨e, he, by simp [hk], hk⟩

end Selected

theorem checkAmount_ok {n : I64} : checkAmount n = .ok () ↔ 0 ≤ n.val := by
  unfold checkAmount
  split <;> rename_i h <;> rw [I64.lt_def, I64.val_zero] at h <;> simp <;> omega

theorem checkAmount_error {n : I64} (h : n.val < 0) :
    ∃ e : KnlError, checkAmount n = .error e ∧ e.isValidation = true :=
  ⟨_, by rw [checkAmount, if_pos (by rw [I64.lt_def]; exact h)], rfl⟩

/-! ### Inversion, operation by operation -/

/-- The store failed and nothing was written. -/
def StoreFailed {op : StoreOp} (db : Database) (a : op.Ans) (db' : Database) : Prop :=
  ∃ e : KnlError, e.isFault = true ∧ a = .error e ∧ db' = db

theorem Sem.cases' {op : StoreOp} {db db' : Database} {a : op.Ans} (h : Sem op db a db') :
    StoreFailed db a db' ∨ ∃ clock, a = (exec clock db op).1 ∧ db' = (exec clock db op).2 := by
  cases h with
  | done clock => exact Or.inr ⟨clock, rfl, rfl⟩
  | failed _ _ he => exact Or.inl ⟨_, he, rfl, rfl⟩

section AppendIf

variable (clock : Nat → Nat) (db : Database) {s : String} {kinds : Option (List String)}
variable {decide : List Current → Cells × Option Obj} (cells : Cells) {event : Obj}

theorem exec_appendIf_none (h : decide (selected (db.stream s) kinds 0 none) = (cells, none)) :
    exec clock db (.appendIf s kinds decide) = (.ok (none, cells), db) := by
  simp only [exec, h]

theorem exec_appendIf_some
    (h : decide (selected (db.stream s) kinds 0 none) = (cells, some event))
    (hv : validateEvent event = .ok ()) :
    exec clock db (.appendIf s kinds decide) =
      (.ok (some (lastCommitted (appendRow clock db s event) s), cells),
        appendRow clock db s event) := by
  simp only [exec, h, hv]

end AppendIf

section Moves

variable {db db' : Database} {s scope : String} {n : I64}

/-- **A reservation**: the store failed, or there is no ledger and nothing was
recorded, or the balance covered it and it was reserved, or it did not and it
was refused. -/
theorem reserve_cases {a : StoreOp.Ans (.appendIf s (some BUDGET_KINDS) (reserveDecision n scope))}
    (h : Sem _ db a db') :
    StoreFailed db a db' ∨
    (foldBalance (db.stream s) = none ∧ a = .ok (none, {}) ∧ db' = db) ∨
    (∃ b ev c, foldBalance (db.stream s) = some b ∧ n.val ≤ b.val ∧
      view ev = ⟨KIND_BUDGET_RESERVED, n, none, none⟩ ∧ a = .ok (some c, {}) ∧
      db' = db ++ [⟨s, ev⟩]) ∨
    (∃ b ev c, foldBalance (db.stream s) = some b ∧ b.val < n.val ∧
      view ev = ⟨KIND_BUDGET_REFUSED, n, none, none⟩ ∧
      a = .ok (some c, { refused := true }) ∧ db' = db ++ [⟨s, ev⟩]) := by
  rcases h.cases' with hf | ⟨clock, rfl, rfl⟩
  · exact Or.inl hf
  right
  cases hg : lastGrant (db.stream s) with
  | none =>
      refine Or.inl ⟨foldBalance_eq_none.mpr (lastGrant_eq_none.mp hg), ?_⟩
      have hx : exec clock db (.appendIf s (some BUDGET_KINDS) (reserveDecision n scope)) = _ :=
        exec_appendIf_none clock db {} (by simp [reserveDecision, hg])
      exact ⟨congrArg Prod.fst hx, congrArg Prod.snd hx⟩
  | some grant =>
      obtain ⟨b, hb⟩ := (granted_of_lastGrant hg).balance
      right
      by_cases hn : n.val ≤ b.val
      · have hx : exec clock db (.appendIf s (some BUDGET_KINDS) (reserveDecision n scope)) = _ :=
          exec_appendIf_some clock db {} (by simp [reserveDecision, hg, hb, I64.le_def, hn])
            (validate_budgetMove n grant.tag scope (Or.inl rfl))
        exact Or.inl ⟨b, _, _, hb, hn, view_budgetMove clock db s n grant.tag scope _,
          congrArg Prod.fst hx, congrArg Prod.snd hx⟩
      · have hx : exec clock db (.appendIf s (some BUDGET_KINDS) (reserveDecision n scope)) = _ :=
          exec_appendIf_some clock db { refused := true }
            (by simp [reserveDecision, hg, hb, I64.le_def, hn])
            (validate_refused n b grant.tag scope)
        exact Or.inr ⟨b, _, _, hb, by omega, view_refused clock db s n b grant.tag scope,
          congrArg Prod.fst hx, congrArg Prod.snd hx⟩

/-- A deduction: recorded exactly where there is a ledger. -/
theorem spend_cases {a : StoreOp.Ans (.appendIf s (some BUDGET_KINDS) (spendDecision n scope))}
    (h : Sem _ db a db') :
    StoreFailed db a db' ∨
    (¬ Granted (db.stream s) ∧ a = .ok (none, {}) ∧ db' = db) ∨
    (∃ ev c, Granted (db.stream s) ∧ view ev = ⟨KIND_BUDGET_SPENT, n, none, none⟩ ∧
      a = .ok (some c, {}) ∧ db' = db ++ [⟨s, ev⟩]) := by
  rcases h.cases' with hf | ⟨clock, rfl, rfl⟩
  · exact Or.inl hf
  right
  cases hg : lastGrant (db.stream s) with
  | none =>
      refine Or.inl ⟨lastGrant_eq_none.mp hg, ?_⟩
      have hx : exec clock db (.appendIf s (some BUDGET_KINDS) (spendDecision n scope)) = _ :=
        exec_appendIf_none clock db {} (by simp [spendDecision, hg])
      exact ⟨congrArg Prod.fst hx, congrArg Prod.snd hx⟩
  | some grant =>
      have hgr : Granted (db.stream s) := granted_of_lastGrant hg
      have hx : exec clock db (.appendIf s (some BUDGET_KINDS) (spendDecision n scope)) = _ :=
        exec_appendIf_some clock db {} (by simp [spendDecision, hg])
          (validate_budgetMove n grant.tag scope (Or.inr rfl))
      exact Or.inr ⟨_, _, hgr, view_budgetMove clock db s n grant.tag scope _,
        congrArg Prod.fst hx, congrArg Prod.snd hx⟩

/-- A grant on a resume: recorded exactly where there is a ledger. -/
theorem resumeGrant_cases {grant : BudgetGrant}
    {a : StoreOp.Ans (.appendIf s (some BUDGET_KINDS) (resumeGrantDecision grant scope))}
    (h : Sem _ db a db') :
    StoreFailed db a db' ∨
    (¬ Granted (db.stream s) ∧ a = .ok (none, {}) ∧ db' = db) ∨
    (∃ ev c, Granted (db.stream s) ∧
      view ev = ⟨KIND_BUDGET_GRANTED, grant.amount, none, none⟩ ∧
      stringField ev FIELD_TAG = grant.tag ∧ a = .ok (some c, {}) ∧ db' = db ++ [⟨s, ev⟩]) := by
  rcases h.cases' with hf | ⟨clock, rfl, rfl⟩
  · exact Or.inl hf
  right
  cases hg : lastGrant (db.stream s) with
  | none =>
      refine Or.inl ⟨lastGrant_eq_none.mp hg, ?_⟩
      have hx : exec clock db
          (.appendIf s (some BUDGET_KINDS) (resumeGrantDecision grant scope)) = _ :=
        exec_appendIf_none clock db {} (by simp [resumeGrantDecision, hg])
      exact ⟨congrArg Prod.fst hx, congrArg Prod.snd hx⟩
  | some last =>
      have hgr : Granted (db.stream s) := granted_of_lastGrant hg
      have hx : exec clock db
          (.appendIf s (some BUDGET_KINDS) (resumeGrantDecision grant scope)) = _ :=
        exec_appendIf_some clock db {} (by simp [resumeGrantDecision, hg])
          (validate_granted scope grant)
      exact Or.inr ⟨_, _, hgr, view_granted clock db s scope grant,
        tag_granted clock db s scope grant, congrArg Prod.fst hx, congrArg Prod.snd hx⟩

end Moves

/-! ### The other writes -/

theorem exec_appendMany_ok (clock : Nat → Nat) (db : Database) {s : String}
    {events : List Obj} (h : validateAll events = .ok ()) :
    exec clock db (.appendMany s events) =
      (.ok (committedRows clock s db events), appendRows clock db s events) := by
  simp only [exec, h]

theorem exec_close (clock : Nat → Nat) (db : Database) (s : String)
    (reason detail : Option String) :
    exec clock db (.appendWithOpenChildren s childScan (closingEvent reason detail)) =
      (.ok (lastCommitted (appendRow clock db s
          (closingEvent reason detail (openChildrenIn db s childScan))) s),
        appendRow clock db s (closingEvent reason detail (openChildrenIn db s childScan))) := by
  simp only [exec, validate_closing]

/-- What an opening records, beside being one. -/
def Opening (ev : Current) (owner scopeId : String) (parent : Option String) : Prop :=
  view ev = ⟨KIND_SESSION_OPENED, 0, none, parent⟩ ∧
    stringField ev FIELD_OWNER = some owner ∧ stringField ev FIELD_SCOPE_ID = some scopeId

section Writes

variable {db db' : Database} {s : String}

theorem append_cases {event : Obj} {a : StoreOp.Ans (.append s event)} (h : Sem _ db a db') :
    StoreFailed db a db' ∨
    (∃ e, validateEvent event = .error e ∧ a = .error e ∧ db' = db) ∨
    (∃ clock c, validateEvent event = .ok () ∧ a = .ok c ∧ db' = appendRow clock db s event) := by
  rcases h.cases' with hf | ⟨clock, rfl, rfl⟩
  · exact Or.inl hf
  right
  cases hv : validateEvent event with
  | error e => exact Or.inl ⟨e, rfl, by simp only [exec, hv], by simp only [exec, hv]⟩
  | ok u => exact Or.inr ⟨clock, _, rfl, by simp only [exec, hv]; rfl, by simp only [exec, hv]⟩

theorem grant_cases {grant : BudgetGrant} {scope : String}
    {a : StoreOp.Ans (.append s (grantedEvent grant scope))} (h : Sem _ db a db') :
    StoreFailed db a db' ∨
    (∃ ev c, view ev = ⟨KIND_BUDGET_GRANTED, grant.amount, none, none⟩ ∧
      stringField ev FIELD_TAG = grant.tag ∧ a = .ok c ∧ db' = db ++ [⟨s, ev⟩]) := by
  rcases append_cases h with hf | ⟨e, hv, -⟩ | ⟨clock, c, -, ha, hdb⟩
  · exact Or.inl hf
  · rw [validate_granted] at hv
    cases hv
  · exact Or.inr ⟨_, c, view_granted clock db s scope grant, tag_granted clock db s scope grant,
      ha, hdb⟩

/-- An opening and its grant are accepted where the opening's labels are. -/
theorem validateAll_opening (owner scope : String) (grant : Option BudgetGrant)
    (labels : Option Obj) :
    validateAll (openedEvent owner scope labels ::
      (grant.map fun g => grantedEvent g scope).toList) = checkMeta (labels.map Json.obj) := by
  simp only [validateAll, validate_opened, bind, Except.bind]
  cases checkMeta (labels.map Json.obj) with
  | error e => rfl
  | ok u => cases grant <;> simp [validateAll, validate_granted, bind, Except.bind]

/-- An opening lands whole, exactly where its labels are accepted. -/
theorem open_cases {owner scope : String} {grant : Option BudgetGrant} {labels : Option Obj}
    {a : StoreOp.Ans (.appendMany s (openedEvent owner scope labels ::
      (grant.map fun g => grantedEvent g scope).toList))} (h : Sem _ db a db') :
    StoreFailed db a db' ∨
    (∃ e, checkMeta (labels.map Json.obj) = .error e ∧ a = .error e ∧ db' = db) ∨
    (∃ ev c, ∃ gv : Option Current, checkMeta (labels.map Json.obj) = .ok () ∧
      Opening ev owner scope none ∧
      gv.map (fun e => (view e, stringField e FIELD_TAG)) = grant.map (fun g =>
        ((⟨KIND_BUDGET_GRANTED, g.amount, none, none⟩ : View), g.tag)) ∧
      a = .ok c ∧ db' = db ++ ⟨s, ev⟩ :: (gv.map (Row.mk s)).toList) := by
  rcases h.cases' with hf | ⟨clock, rfl, rfl⟩
  · exact Or.inl hf
  right
  have hall := validateAll_opening owner scope grant labels
  cases hv : checkMeta (labels.map Json.obj) with
  | error e => exact Or.inl ⟨e, rfl, by simp only [exec, hall, hv], by simp only [exec, hall, hv]⟩
  | ok u =>
      have hx := exec_appendMany_ok clock db (s := s) (hall.trans hv)
      refine Or.inr ⟨_, _, grant.map fun g => landed clock
        (appendRow clock db s (openedEvent owner scope labels)) s (grantedEvent g scope),
        rfl, ⟨view_opened clock db s scope owner labels,
          scope_opened clock db s scope owner labels⟩, ?_, congrArg Prod.fst hx, ?_⟩
      · cases grant <;> simp [view_granted, tag_granted]
      · rw [congrArg Prod.snd hx]
        cases grant <;> simp [appendRows, appendRow]

/-- A close lands with the children the scan found in the same transaction. -/
theorem close_cases {reason detail : Option String}
    {a : StoreOp.Ans (.appendWithOpenChildren s childScan (closingEvent reason detail))}
    (h : Sem _ db a db') :
    StoreFailed db a db' ∨
    (∃ ev c, view ev = ⟨KIND_SESSION_CLOSED, 0, none, none⟩ ∧
      dataField ev FIELD_OPEN_CHILDREN =
        (if openChildrenIn db s childScan = [] then none
          else some (.arr ((openChildrenIn db s childScan).map Json.str))) ∧
      a = .ok c ∧ db' = db ++ [⟨s, ev⟩]) := by
  rcases h.cases' with hf | ⟨clock, rfl, rfl⟩
  · exact Or.inl hf
  right
  have hx := exec_close clock db s reason detail
  exact ⟨_, _, view_closing clock db s reason detail _,
    openChildren_closing clock db s reason detail _, congrArg Prod.fst hx,
    congrArg Prod.snd hx⟩

theorem detach_cases {reason : String}
    {a : StoreOp.Ans (.detachAppend s (closingEvent (some reason) none []))}
    (h : Sem _ db a db') :
    db' = db ∨ ∃ ev, view ev = ⟨KIND_SESSION_CLOSED, 0, none, none⟩ ∧
      dataField ev FIELD_OPEN_CHILDREN = none ∧ db' = db ++ [⟨s, ev⟩] := by
  rcases h.cases' with ⟨e, -, -, rfl⟩ | ⟨clock, rfl, rfl⟩
  · exact Or.inl rfl
  right
  refine ⟨_, view_closing clock db s (some reason) none [],
    openChildren_closing clock db s (some reason) none [], ?_⟩
  simp only [exec, validate_closing]
  rfl

end Writes

/-! ### Allocations -/

section Allocations

variable {db db' : Database} {s : String} {plan : AllocationPlan}

/-- An allocation may go ahead: the child's stream is empty, the parent has no
ending, and its balance, where it has one, covers the amount. -/
def Covers (db : Database) (s child : String) (amount : I64) : Prop :=
  db.stream child = [] ∧ ¬ Ended (db.stream s) ∧
    ∀ b ∈ foldBalance (db.stream s), amount.val ≤ b.val

/-- The rows an allocation adds: the parent's reservation, the child's opening
and the child's grant. -/
structure Allocated (db db' : Database) (s : String) (plan : AllocationPlan) where
  own : Current
  opened : Current
  granted : Current
  own_view : view own = ⟨KIND_BUDGET_RESERVED, plan.amount, some plan.child, none⟩
  opening : Opening opened plan.owner plan.childScope (some plan.parent)
  granted_view : view granted = ⟨KIND_BUDGET_GRANTED, plan.amount, none, some plan.parent⟩
  granted_tag : stringField granted FIELD_TAG = plan.childTag
  rows : db' = db ++ [⟨s, own⟩, ⟨plan.child, opened⟩, ⟨plan.child, granted⟩]

theorem Allocated.stream_own (hall : Allocated db db' s plan) (hne : plan.child ≠ s) :
    db'.stream s = db.stream s ++ [hall.own] := by
  calc db'.stream s
      = Database.stream (db ++ [⟨s, hall.own⟩, ⟨plan.child, hall.opened⟩,
          ⟨plan.child, hall.granted⟩]) s := congrArg (Database.stream · s) hall.rows
    _ = db.stream s ++ [hall.own] := by
        simp [Database.stream_cons_of_ne, hne]

theorem Allocated.stream_child (hall : Allocated db db' s plan) (hne : plan.child ≠ s) :
    db'.stream plan.child = db.stream plan.child ++ [hall.opened, hall.granted] := by
  calc db'.stream plan.child
      = Database.stream (db ++ [⟨s, hall.own⟩, ⟨plan.child, hall.opened⟩,
          ⟨plan.child, hall.granted⟩]) plan.child :=
        congrArg (Database.stream · plan.child) hall.rows
    _ = db.stream plan.child ++ [hall.opened, hall.granted] := by
        simp [Database.stream_cons_of_ne, hne.symm]

theorem exec_appendIfMany_none (clock : Nat → Nat) (db : Database) {s other : String}
    {kinds : Option (List String)} {decide : Split Current → Cells × Option (Split Obj)}
    {cells : Cells}
    (h : decide ⟨selected (db.stream s) kinds 0 none,
      selected (db.stream other) none 0 (some 1)⟩ = (cells, none)) :
    exec clock db (.appendIfMany s other kinds decide) = (.ok (none, cells), db) := by
  simp only [exec, h]

theorem exec_appendIfMany_refused (clock : Nat → Nat) (db : Database) {s other : String}
    {kinds : Option (List String)} {decide : Split Current → Cells × Option (Split Obj)}
    {cells : Cells} {split : Split Obj} {e : KnlError}
    (h : decide ⟨selected (db.stream s) kinds 0 none,
      selected (db.stream other) none 0 (some 1)⟩ = (cells, some split))
    (hv : validateAll (split.own ++ split.other) = .error e) :
    exec clock db (.appendIfMany s other kinds decide) = (.error e, db) := by
  simp only [exec, h, hv]

theorem exec_appendIfMany_some (clock : Nat → Nat) (db : Database) {s other : String}
    {kinds : Option (List String)} {decide : Split Current → Cells × Option (Split Obj)}
    {cells : Cells} {split : Split Obj}
    (h : decide ⟨selected (db.stream s) kinds 0 none,
      selected (db.stream other) none 0 (some 1)⟩ = (cells, some split))
    (hv : validateAll (split.own ++ split.other) = .ok ()) :
    exec clock db (.appendIfMany s other kinds decide) =
      (.ok (some ⟨committedRows clock s db split.own,
          committedRows clock other (appendRows clock db s split.own) split.other⟩, cells),
        appendRows clock (appendRows clock db s split.own) other split.other) := by
  simp only [exec, h, hv]

/-- The events of an allocation that went ahead. -/
def AllocationPlan.split (plan : AllocationPlan) : Split Obj :=
  ⟨[allocatedEvent plan.amount plan.parentTag plan.parentScope plan.child],
    [childOpenedEvent plan.owner plan.childScope plan.parent plan.labels,
      childGrantedEvent plan.amount plan.childTag plan.childScope plan.parent]⟩

theorem allocationDecision_covers (h : Covers db s plan.child plan.amount) :
    allocationDecision plan ⟨selected (db.stream s) (some ALLOCATION_KINDS) 0 none,
      selected (db.stream plan.child) none 0 (some 1)⟩ = ({}, some plan.split) := by
  obtain ⟨hchild, hend, hb⟩ := h
  unfold allocationDecision
  rw [if_neg (by simpa using (selected_first _).mpr hchild),
    if_neg (by rw [ended_allocationKinds]; exact hend)]
  simp only [foldBalance_allocationKinds]
  split
  · rfl
  · rename_i b hb'
    rw [if_neg (by rw [I64.lt_def]; have := hb b hb'; omega)]
    rfl

theorem validateAll_allocation (plan : AllocationPlan) :
    validateAll (plan.split.own ++ plan.split.other) =
      checkMeta (plan.labels.map Json.obj) := by
  simp only [AllocationPlan.split, List.cons_append, List.nil_append, validateAll,
    validate_allocated, validate_childOpened, validate_childGranted, bind, Except.bind]
  cases checkMeta (plan.labels.map Json.obj) <;> rfl

/-- **An allocation**: the store failed, or the child's stream was taken, or
the parent has ended, or its balance is short and a refusal was recorded, or
the child's labels were not accepted, or all three events landed. -/
theorem allocation_cases
    {a : StoreOp.Ans (.appendIfMany s plan.child (some ALLOCATION_KINDS)
      (allocationDecision plan))} (h : Sem _ db a db') :
    StoreFailed db a db' ∨
    (db.stream plan.child ≠ [] ∧ a = .ok (none, { occupied := true }) ∧ db' = db) ∨
    (db.stream plan.child = [] ∧ Ended (db.stream s) ∧ a = .ok (none, { ended := true }) ∧
      db' = db) ∨
    (∃ b ev c, db.stream plan.child = [] ∧ ¬ Ended (db.stream s) ∧
      foldBalance (db.stream s) = some b ∧ b.val < plan.amount.val ∧
      view ev = ⟨KIND_BUDGET_REFUSED, plan.amount, some plan.child, none⟩ ∧
      a = .ok (some c, { refused := true, measured := b }) ∧ db' = db ++ [⟨s, ev⟩]) ∨
    (Covers db s plan.child plan.amount ∧
      ∃ e, checkMeta (plan.labels.map Json.obj) = .error e ∧ a = .error e ∧ db' = db) ∨
    (Covers db s plan.child plan.amount ∧ checkMeta (plan.labels.map Json.obj) = .ok () ∧
      (∃ c, a = .ok (some c, {})) ∧ Nonempty (Allocated db db' s plan)) := by
  rcases h.cases' with hf | ⟨clock, rfl, rfl⟩
  · exact Or.inl hf
  right
  by_cases hchild : db.stream plan.child = []
  swap
  · have hd : allocationDecision plan ⟨selected (db.stream s) (some ALLOCATION_KINDS) 0 none,
        selected (db.stream plan.child) none 0 (some 1)⟩ = ({ occupied := true }, none) := by
      unfold allocationDecision
      rw [if_pos (by simpa using fun hn => hchild ((selected_first _).mp hn))]
    have hx := exec_appendIfMany_none clock db hd
    exact Or.inl ⟨hchild, congrArg Prod.fst hx, congrArg Prod.snd hx⟩
  right
  have hempty : ¬ selected (db.stream plan.child) none 0 (some 1) ≠ [] :=
    not_not.mpr ((selected_first _).mpr hchild)
  by_cases hend : Ended (db.stream s)
  · have hd : allocationDecision plan ⟨selected (db.stream s) (some ALLOCATION_KINDS) 0 none,
        selected (db.stream plan.child) none 0 (some 1)⟩ = ({ ended := true }, none) := by
      unfold allocationDecision
      rw [if_neg hempty, if_pos ((ended_allocationKinds _).mpr hend)]
    have hx := exec_appendIfMany_none clock db hd
    exact Or.inl ⟨hchild, hend, congrArg Prod.fst hx, congrArg Prod.snd hx⟩
  right
  by_cases hcov : ∀ b ∈ foldBalance (db.stream s), plan.amount.val ≤ b.val
  swap
  · -- the balance is short: the refusal is recorded on the parent alone
    push Not at hcov
    obtain ⟨b, hb, hlt⟩ := hcov
    have hd : allocationDecision plan ⟨selected (db.stream s) (some ALLOCATION_KINDS) 0 none,
        selected (db.stream plan.child) none 0 (some 1)⟩ =
        ({ refused := true, measured := b }, some ⟨[allocationRefusedEvent plan.amount b
          plan.parentTag plan.parentScope plan.child], []⟩) := by
      unfold allocationDecision
      rw [if_neg hempty, if_neg (by rw [ended_allocationKinds]; exact hend)]
      simp only [foldBalance_allocationKinds, Option.mem_def.mp hb]
      rw [if_pos (I64.lt_def.mpr hlt)]
    have hx := exec_appendIfMany_some clock db hd
      (by simp [validateAll, validate_allocationRefused, bind, Except.bind])
    exact Or.inl ⟨b, _, _, hchild, hend, hb, hlt, view_allocationRefused clock db s plan.amount b
      plan.parentTag plan.parentScope plan.child, congrArg Prod.fst hx, congrArg Prod.snd hx⟩
  right
  -- the balance covers it: three events in one transaction, or none if the labels are bad
  have hcovers : Covers db s plan.child plan.amount := ⟨hchild, hend, hcov⟩
  have hd := allocationDecision_covers hcovers
  cases hv : checkMeta (plan.labels.map Json.obj) with
  | error e =>
      have hx := exec_appendIfMany_refused clock db hd ((validateAll_allocation plan).trans hv)
      exact Or.inl ⟨hcovers, e, rfl, congrArg Prod.fst hx, congrArg Prod.snd hx⟩
  | ok u =>
      have hx := exec_appendIfMany_some clock db hd ((validateAll_allocation plan).trans hv)
      let db₁ := appendRow clock db s
        (allocatedEvent plan.amount plan.parentTag plan.parentScope plan.child)
      let db₂ := appendRow clock db₁ plan.child
        (childOpenedEvent plan.owner plan.childScope plan.parent plan.labels)
      exact Or.inr ⟨hcovers, rfl, ⟨_, congrArg Prod.fst hx⟩, ⟨{
        own := landed clock db s
          (allocatedEvent plan.amount plan.parentTag plan.parentScope plan.child)
        opened := landed clock db₁ plan.child
          (childOpenedEvent plan.owner plan.childScope plan.parent plan.labels)
        granted := landed clock db₂ plan.child
          (childGrantedEvent plan.amount plan.childTag plan.childScope plan.parent)
        own_view := view_allocated ..
        opening := ⟨view_childOpened .., scope_childOpened ..⟩
        granted_view := view_childGranted ..
        granted_tag := tag_childGranted ..
        rows := (congrArg Prod.snd hx).trans (by
          simp [AllocationPlan.split, appendRows, appendRow, db₁, db₂]) }⟩⟩

end Allocations

end AgentBlock.Knl
