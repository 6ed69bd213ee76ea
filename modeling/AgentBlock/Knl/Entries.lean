/-
AgentBlock/Knl/Entries.lean

What the events a session writes read back as.

The results of this development are about a handful of readings of an event:
its kind, the amount it moves, and the child or the parent it names.  `view`
collects them, and each builder has one lemma saying what its event reads
back as, so nothing after this module unfolds a builder.

Main results:

* `view_*` — the reading of each event the kernel builds;
* `validate_*` — each is accepted, an opening exactly where its labels are.
-/
import AgentBlock.Knl.Session

namespace AgentBlock.Knl

/-- The amount an event carries, as it was written. -/
def rawAmount (event : Current) : I64 := (dataField event FIELD_AMOUNT).elim 0 whole

theorem amountOf_eq (event : Current) : amountOf event = I64.max (rawAmount event) 0 := rfl

theorem amountOf_of_nonneg {event : Current} (h : 0 ≤ (rawAmount event).val) :
    amountOf event = rawAmount event := by
  ext
  rw [amountOf_eq, I64.val_max, I64.val_zero]
  omega

/-- The readings of an event the ledger and the tree are made of. -/
structure View where
  kind : String
  amount : I64
  child : Option String
  parent : Option String
  deriving DecidableEq

/-- Read an event. -/
def view (event : Current) : View where
  kind := event.kind
  amount := rawAmount event
  child := stringField event FIELD_CHILD
  parent := stringField event FIELD_PARENT

section View

variable {event : Current} {v : View}

theorem kind_of_view (h : view event = v) : event.kind = v.kind := by rw [← h]; rfl

theorem amount_of_view (h : view event = v) : rawAmount event = v.amount := by rw [← h]; rfl

theorem child_of_view (h : view event = v) : stringField event FIELD_CHILD = v.child := by
  rw [← h]; rfl

theorem parent_of_view (h : view event = v) : stringField event FIELD_PARENT = v.parent := by
  rw [← h]; rfl

end View

/-! ### What each builder's event reads back as -/

section Readings

variable (clock : Nat → Nat) (db : Database) (s : String)
variable (amount remaining : I64) (tag : Option String)
variable (scopeId owner parent child : String) (labels : Option Obj) (kind : String)

theorem view_landed (event : Obj) :
    view (landed clock db s event) =
      { kind := kindOf event
        amount := ((objectField event FIELD_DATA).get? FIELD_AMOUNT).elim 0 whole
        child := ((objectField event FIELD_DATA).get? FIELD_CHILD).bind Json.asStr
        parent := ((objectField event FIELD_DATA).get? FIELD_PARENT).bind Json.asStr } := by
  simp [view, rawAmount, stringField, dataField]

@[simp] theorem whole_amount : whole (.num (.int amount.val)) = amount := I64.clamp_val amount

@[simp] theorem get?_elim_insert {tag : Option String} {data : Obj} {field key : String}
    (h : field ≠ key) :
    Obj.get? (tag.elim data fun t => data.insert field (.str t)) key = data.get? key := by
  cases tag <;> simp [h]

theorem view_granted (grant : BudgetGrant) :
    view (landed clock db s (grantedEvent grant scopeId)) =
      ⟨KIND_BUDGET_GRANTED, grant.amount, none, none⟩ := by
  simp [view_landed, grantedEvent]

/-- A grant's tag is the owner's, and absent where the owner gave none. -/
theorem tag_granted (grant : BudgetGrant) :
    stringField (landed clock db s (grantedEvent grant scopeId)) FIELD_TAG = grant.tag := by
  cases ht : grant.tag <;> simp [stringField, dataField, grantedEvent, ht]

theorem view_budgetMove :
    view (landed clock db s (budgetMoveEvent kind amount tag scopeId)) =
      ⟨kind, amount, none, none⟩ := by
  simp [view_landed, budgetMoveEvent, budgetMoveData]

theorem view_refused :
    view (landed clock db s (refusedEvent amount remaining tag scopeId)) =
      ⟨KIND_BUDGET_REFUSED, amount, none, none⟩ := by
  simp [view_landed, refusedEvent, budgetMoveData]

theorem view_allocated :
    view (landed clock db s (allocatedEvent amount tag scopeId child)) =
      ⟨KIND_BUDGET_RESERVED, amount, some child, none⟩ := by
  simp [view_landed, allocatedEvent, budgetMoveData]

theorem allocationRefusedEvent_eq :
    allocationRefusedEvent amount remaining tag scopeId child =
      (refusedEvent amount remaining tag scopeId).insert FIELD_DATA
        (.obj (((budgetMoveData amount tag scopeId).insert FIELD_REMAINING
          (.num (.int remaining.val))).insert FIELD_CHILD (.str child))) := by
  simp [allocationRefusedEvent, refusedEvent, kernelEvent]

theorem view_allocationRefused :
    view (landed clock db s (allocationRefusedEvent amount remaining tag scopeId child)) =
      ⟨KIND_BUDGET_REFUSED, amount, some child, none⟩ := by
  simp [view_landed, allocationRefusedEvent_eq, kindOf, objectField, budgetMoveData,
    refusedEvent, kernelEvent]

theorem view_opened :
    view (landed clock db s (openedEvent owner scopeId labels)) =
      ⟨KIND_SESSION_OPENED, 0, none, none⟩ := by
  simp [view_landed, openedEvent]

/-- An opening records the owner and the scope it opens under. -/
theorem scope_opened :
    stringField (landed clock db s (openedEvent owner scopeId labels)) FIELD_OWNER =
        some owner ∧
      stringField (landed clock db s (openedEvent owner scopeId labels)) FIELD_SCOPE_ID =
        some scopeId := by
  simp [stringField, dataField, openedEvent]

theorem scope_childOpened :
    stringField (landed clock db s (childOpenedEvent owner scopeId parent labels))
        FIELD_OWNER = some owner ∧
      stringField (landed clock db s (childOpenedEvent owner scopeId parent labels))
        FIELD_SCOPE_ID = some scopeId := by
  simp [stringField, dataField, childOpenedEvent]

theorem view_childOpened :
    view (landed clock db s (childOpenedEvent owner scopeId parent labels)) =
      ⟨KIND_SESSION_OPENED, 0, none, some parent⟩ := by
  simp [view_landed, childOpenedEvent]

theorem view_childGranted :
    view (landed clock db s (childGrantedEvent amount tag scopeId parent)) =
      ⟨KIND_BUDGET_GRANTED, amount, none, some parent⟩ := by
  simp [view_landed, childGrantedEvent, budgetMoveData]

theorem tag_childGranted :
    stringField (landed clock db s (childGrantedEvent amount tag scopeId parent)) FIELD_TAG =
      tag := by
  cases tag <;> simp [stringField, dataField, childGrantedEvent, budgetMoveData]

theorem view_closing (reason detail : Option String) (children : List String) :
    view (landed clock db s (closingEvent reason detail children)) =
      ⟨KIND_SESSION_CLOSED, 0, none, none⟩ := by
  cases children <;> simp [view_landed, closingEvent]

/-- The children a boundary lists: the field is absent when there are none. -/
theorem openChildren_closing (reason detail : Option String) (children : List String) :
    dataField (landed clock db s (closingEvent reason detail children)) FIELD_OPEN_CHILDREN =
      if children = [] then none else some (.arr (children.map Json.str)) := by
  cases children <;> simp [dataField, closingEvent]

end Readings

/-! ### What is accepted -/

section Accepted

-- the equations of a match on texts take long, so they are made here, before the
-- proofs that unfold it
attribute [local grind =] requiredData

variable (amount remaining : I64) (tag : Option String)
variable (scopeId owner parent child : String) (labels : Option Obj)

theorem validate_granted (grant : BudgetGrant) :
    validateEvent (grantedEvent grant scopeId) = .ok () := by
  simp [grantedEvent, validateEvent_kernelEvent, requiredData, BUDGET_GRANTED_DATA,
    checkRequired, Shape.accepts, isWholeNumber]

theorem validate_budgetMove {kind : String}
    (hk : kind = KIND_BUDGET_RESERVED ∨ kind = KIND_BUDGET_SPENT) :
    validateEvent (budgetMoveEvent kind amount tag scopeId) = .ok () := by
  rcases hk with rfl | rfl <;>
  simp [budgetMoveEvent, budgetMoveData, validateEvent_kernelEvent, requiredData,
    BUDGET_MOVE_DATA, checkRequired, Shape.accepts, isWholeNumber]

theorem validate_refused :
    validateEvent (refusedEvent amount remaining tag scopeId) = .ok () := by
  simp [refusedEvent, budgetMoveData, validateEvent_kernelEvent, requiredData,
    BUDGET_REFUSED_DATA, checkRequired, Shape.accepts, isWholeNumber]

theorem validate_allocated :
    validateEvent (allocatedEvent amount tag scopeId child) = .ok () := by
  simp [allocatedEvent, budgetMoveData, validateEvent_kernelEvent, requiredData,
    BUDGET_MOVE_DATA, checkRequired, Shape.accepts, isWholeNumber]

theorem validate_allocationRefused :
    validateEvent (allocationRefusedEvent amount remaining tag scopeId child) = .ok () := by
  have heq : allocationRefusedEvent amount remaining tag scopeId child =
      kernelEvent KIND_BUDGET_REFUSED (((budgetMoveData amount tag scopeId).insert
        FIELD_REMAINING (.num (.int remaining.val))).insert FIELD_CHILD (.str child)) := by
    rw [allocationRefusedEvent_eq, refusedEvent, kernelEvent_eq, kernelEvent_eq]
    rfl
  rw [heq, validateEvent_kernelEvent]
  simp [budgetMoveData, requiredData, BUDGET_REFUSED_DATA, checkRequired, Shape.accepts,
    isWholeNumber]

theorem validate_childGranted :
    validateEvent (childGrantedEvent amount tag scopeId parent) = .ok () := by
  simp [childGrantedEvent, budgetMoveData, validateEvent_kernelEvent, requiredData,
    BUDGET_GRANTED_DATA, checkRequired, Shape.accepts, isWholeNumber]

theorem validate_closing (reason detail : Option String) (children : List String) :
    validateEvent (closingEvent reason detail children) = .ok () := by
  cases children <;>
  simp [closingEvent, validateEvent_kernelEvent, requiredData, SESSION_CLOSED_DATA,
    checkRequired, Shape.accepts]

theorem withMeta_cons (kind : String) (data : Obj) (m : String × Json) (rest : Obj) :
    withMeta (kernelEvent kind data) (some (m :: rest)) =
      [(FIELD_DATA, .obj data), (FIELD_KIND, .str kind), (FIELD_META, .obj (m :: rest))] :=
  rfl

/-- An event with labels is checked by its labels, and then as without. -/
theorem validate_withMeta {kind : String} {data : Obj}
    (h : validateEvent (kernelEvent kind data) = .ok ()) :
    validateEvent (withMeta (kernelEvent kind data) labels) =
      checkMeta (labels.map Json.obj) := by
  rcases labels with _ | ⟨_ | ⟨m, rest⟩⟩
  · exact h
  · exact h
  · rw [validateEvent_kernelEvent] at h
    simp only [withMeta_cons, validateEvent, checkKind, checkEnvelope, checkData, Obj.get?,
      ENVELOPE_FIELDS, bind, Except.bind, Option.map_some]
    simp only [FIELD_DATA, FIELD_KIND, FIELD_META, String.reduceEq, if_false, if_true,
      List.mem_cons, true_or, or_true, h]
    cases checkMeta (some (.obj (m :: rest))) <;> rfl

theorem validate_opened :
    validateEvent (openedEvent owner scopeId labels) = checkMeta (labels.map Json.obj) := by
  refine validate_withMeta labels ?_
  simp [validateEvent_kernelEvent, requiredData, SESSION_OPENED_DATA, checkRequired,
    Shape.accepts]

theorem validate_childOpened :
    validateEvent (childOpenedEvent owner scopeId parent labels) =
      checkMeta (labels.map Json.obj) := by
  refine validate_withMeta labels ?_
  simp [validateEvent_kernelEvent, requiredData, SESSION_OPENED_DATA, checkRequired,
    Shape.accepts]

end Accepted

end AgentBlock.Knl
