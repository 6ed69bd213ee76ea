/-
AgentBlock/Knl/Session.lean

A session: one handle on a stream, and every call it makes of the store.

A method is a program over `StoreOp` that returns or fails.  A method that
changes its handle returns the handle it leaves; on a failure the handle is
what it was.  The ids the kernel mints are arguments (`Minted`).
-/
import AgentBlock.Knl.Store

namespace AgentBlock.Knl

open Interleaving

/-! ### The events a session writes -/

def DEFAULT_CLOSE_REASON : String := "closed"
def CLOSED : String := "session is closed"
def ANON : String := "anon"

/-- A `budget_granted` event for `grant`, written under `scopeId`. -/
def grantedEvent (grant : BudgetGrant) (scopeId : String) : Obj :=
  let data := (Obj.insert [] FIELD_SCOPE_ID (.str scopeId)).insert FIELD_AMOUNT
    (.num (.int grant.amount.val))
  let data := grant.tag.elim data fun tag => data.insert FIELD_TAG (.str tag)
  let data := grant.desc.elim data fun desc => data.insert FIELD_DESC (.str desc)
  kernelEvent KIND_BUDGET_GRANTED data

/-- The `data` every `budget_*` entry carries. -/
def budgetMoveData (amount : I64) (tag : Option String) (scopeId : String) : Obj :=
  let data := (Obj.insert [] FIELD_SCOPE_ID (.str scopeId)).insert FIELD_AMOUNT
    (.num (.int amount.val))
  tag.elim data fun tag => data.insert FIELD_TAG (.str tag)

def budgetMoveEvent (kind : String) (amount : I64) (tag : Option String)
    (scopeId : String) : Obj :=
  kernelEvent kind (budgetMoveData amount tag scopeId)

/-- A refusal carries the balance it was measured against. -/
def refusedEvent (amount remaining : I64) (tag : Option String) (scopeId : String) : Obj :=
  kernelEvent KIND_BUDGET_REFUSED
    ((budgetMoveData amount tag scopeId).insert FIELD_REMAINING (.num (.int remaining.val)))

/-- The parent's side of an allocation. -/
def allocatedEvent (amount : I64) (tag : Option String) (scopeId child : String) : Obj :=
  kernelEvent KIND_BUDGET_RESERVED
    ((budgetMoveData amount tag scopeId).insert FIELD_CHILD (.str child))

/-- The parent's side of an allocation that did not happen. -/
def allocationRefusedEvent (amount remaining : I64) (tag : Option String)
    (scopeId child : String) : Obj :=
  let event := refusedEvent amount remaining tag scopeId
  match event.get? FIELD_DATA with
  | some (.obj data) => event.insert FIELD_DATA (.obj (Obj.insert data FIELD_CHILD (.str child)))
  | _ => event

/-- A session's own opening. -/
def openedEvent (owner scopeId : String) (labels : Option Obj) : Obj :=
  withMeta (kernelEvent KIND_SESSION_OPENED
    ((Obj.insert [] FIELD_OWNER (.str owner)).insert FIELD_SCOPE_ID (.str scopeId))) labels

/-- A child's opening names the stream it was opened from. -/
def childOpenedEvent (owner scopeId parent : String) (labels : Option Obj) : Obj :=
  withMeta (kernelEvent KIND_SESSION_OPENED
    (((Obj.insert [] FIELD_OWNER (.str owner)).insert FIELD_SCOPE_ID
      (.str scopeId)).insert FIELD_PARENT (.str parent))) labels

/-- The units a child opens with name where they came from. -/
def childGrantedEvent (amount : I64) (tag : Option String) (scopeId parent : String) : Obj :=
  kernelEvent KIND_BUDGET_GRANTED
    ((budgetMoveData amount tag scopeId).insert FIELD_PARENT (.str parent))

/-- The boundary a close records. -/
def closingEvent (reason detail : Option String) (children : List String) : Obj :=
  let data := Obj.insert [] FIELD_REASON (.str (reason.getD DEFAULT_CLOSE_REASON))
  let data := detail.elim data fun detail => data.insert FIELD_DETAIL (.str detail)
  let data :=
    if children.isEmpty then data
    else data.insert FIELD_OPEN_CHILDREN (.arr (children.map Json.str))
  kernelEvent KIND_SESSION_CLOSED data

/-- How the store recognises a session's children. -/
def childScan : ChildScan where
  opened := KIND_SESSION_OPENED
  closed := KIND_SESSION_CLOSED
  parentField := FIELD_PARENT

/-- The ledger, and the ending a child must not be opened under. -/
def ALLOCATION_KINDS : List String :=
  [KIND_BUDGET_GRANTED, KIND_BUDGET_RESERVED, KIND_BUDGET_REFUSED, KIND_BUDGET_SPENT,
    KIND_SESSION_CLOSED]

def kernelOnlyHint (kind : String) : String :=
  if kind = KIND_SESSION_OPENED then "a session records its own opening"
  else if kind = KIND_SESSION_CLOSED then "use close"
  else "use reserve / spend"

/-! ### Handles -/

/-- Whose session this is, and the words of the grant it was given last. -/
structure Scope where
  id : String
  owner : String
  grant : Option BudgetGrant

/-- The store a handle is scoped to: a stream, and the database it lives in. -/
structure Store where
  database : Option String
  stream : String

/-- One handle.  `balance` is the last fold and the head it was taken at. -/
structure Session where
  id : String
  scope : Scope
  store : Store
  balance : Nat × Option I64
  closed : Bool

/-- The ids the kernel mints during a call: the handle's, and a scope's. -/
structure Minted where
  id : String
  scopeId : String

/-- A store call may fail, and so may the method that makes it. -/
abbrev KnlM : Type → Type := ExceptT KnlError (Prog StoreOp StoreOp.Ans)

/-- Make one call of the store. -/
def ask (op : StoreOp) : KnlM op.Reply := ExceptT.mk (Prog.perform op)

/-- Hand the store a call and go on, whatever becomes of it. -/
def tell (op : StoreOp) : KnlM Unit :=
  ExceptT.mk (Prog.perform op >>= fun _ => pure (.ok ()))

/-- The words of a later grant become the scope's. -/
def Scope.grantMore (scope : Scope) (grant : BudgetGrant) : Except KnlError Scope := do
  checkAmount grant.amount
  .ok { scope with grant := some grant }

/-- Adopt `id` as the session's own: the stream it writes. -/
def Session.adoptId (h : Session) (id : String) : Session := { h with id := id }

/-! ### What the decisions decide -/

/-- A reservation: nothing without a ledger, and otherwise one of the two
entries. -/
def reserveDecision (amount : I64) (scopeId : String) (events : List Current) :
    Cells × Option Obj :=
  match lastGrant events with
  | none => ({}, none)
  | some grant =>
      let balance := (foldBalance events).getD 0
      if balance ≥ amount then
        ({}, some (budgetMoveEvent KIND_BUDGET_RESERVED amount grant.tag scopeId))
      else ({ refused := true }, some (refusedEvent amount balance grant.tag scopeId))

/-- A deduction that does not ask. -/
def spendDecision (amount : I64) (scopeId : String) (events : List Current) :
    Cells × Option Obj :=
  match lastGrant events with
  | none => ({}, none)
  | some grant => ({}, some (budgetMoveEvent KIND_BUDGET_SPENT amount grant.tag scopeId))

/-- A grant on a resume: only where a ledger already is. -/
def resumeGrantDecision (grant : BudgetGrant) (scopeId : String) (events : List Current) :
    Cells × Option Obj :=
  match lastGrant events with
  | none => ({}, none)
  | some _ => ({}, some (grantedEvent grant scopeId))

/-- What an allocation is decided from. -/
structure AllocationPlan where
  amount : I64
  parentTag : Option String
  childTag : Option String
  parentScope : String
  childScope : String
  parent : String
  child : String
  owner : String
  labels : Option Obj

/-- An allocation: the child's stream is looked at first, then the parent's
ending, then its balance. -/
def allocationDecision (plan : AllocationPlan) (seen : Split Current) :
    Cells × Option (Split Obj) :=
  if seen.other ≠ [] then ({ occupied := true }, none)
  else if seen.own.any fun e => e.kind = KIND_SESSION_CLOSED then ({ ended := true }, none)
  else
    let allocated : Split Obj :=
      ⟨[allocatedEvent plan.amount plan.parentTag plan.parentScope plan.child],
        [childOpenedEvent plan.owner plan.childScope plan.parent plan.labels,
          childGrantedEvent plan.amount plan.childTag plan.childScope plan.parent]⟩
    -- a parent that was granted nothing keeps no ledger, and pays for any child
    match foldBalance seen.own with
    | none => ({}, some allocated)
    | some balance =>
        if balance < plan.amount then
          ({ refused := true, measured := balance },
            some ⟨[allocationRefusedEvent plan.amount balance plan.parentTag
              plan.parentScope plan.child], []⟩)
        else ({}, some allocated)

namespace Session

/-! ### Opening and resuming -/

/-- Open a session on a store: its boundary and its grant in one write. -/
def openOn (minted : Minted) (owner : String) (grant : Option BudgetGrant)
    (labels : Option Obj) (store : Store) : KnlM Session := do
  let started := openedEvent owner minted.scopeId labels
  let opening := started :: (grant.map fun g => grantedEvent g minted.scopeId).toList
  let _ ← ask (.appendMany store.stream opening)
  return ⟨minted.id, ⟨minted.scopeId, owner, grant⟩, store, (0, none), false⟩

/-- The owner granting again on a resume. -/
def grantOnResume (h : Session) (grant : BudgetGrant) : KnlM Session := do
  checkAmount grant.amount
  let (committed, _) ← ask (.appendIf h.store.stream (some BUDGET_KINDS)
    (resumeGrantDecision grant h.scope.id))
  if committed.isNone then
    throw (.validation ("this stream opened with no budget, and a resume does not give " ++
      "one: a session's quota is settled when it opens (open a new session with the " ++
      "grant, or resume without one)"))
  let scope ← h.scope.grantMore grant
  return { h with scope := scope }

/-- The session a log describes, before anything is granted on it. -/
def restored (minted : Minted) (opened : Current) (log : List Current) (store : Store) :
    Session where
  id := minted.id
  scope :=
    { id := (stringField opened FIELD_SCOPE_ID).getD minted.scopeId
      owner := (stringField opened FIELD_OWNER).getD ANON
      grant := lastGrant log }
  store := store
  balance := ((log.getLast?.map Current.seq).getD 0, foldBalance log)
  closed := false

/-- Continue a stream from its log. -/
def resume (minted : Minted) (grant : Option BudgetGrant) (store : Store) :
    KnlM Session := do
  let log ← ask (.readKinds store.stream none 0 none)
  match log.find? fun event => event.kind = KIND_SESSION_OPENED with
  | none =>
      throw (.validation "stream has no session to resume (no session_opened event)")
  | some opened => do
      let ending ← ask (.readKinds store.stream (some [KIND_SESSION_CLOSED]) 0 (some 1))
      if ¬ ending.isEmpty then
        throw (.closed (CLOSED ++ " (disposable; open a new session)"))
      let session := restored minted opened log store
      match grant with
      | none => return session
      | some grant => session.grantOnResume grant

/-! ### Writing -/

/-- The path the kernel's own writes take. -/
def appendKernel (h : Session) (event : Obj) : KnlM Nat := do
  if h.closed then throw (.closed CLOSED)
  let committed ← ask (.append h.store.stream event)
  return committed.seq

/-- Record an event of the caller's. -/
def append (h : Session) (event : Obj) : KnlM Nat := do
  let kind := kindOf event
  if isKernelOnly kind then
    throw (.validation (quoted kind ++ " is written by the kernel only (" ++
      kernelOnlyHint kind ++ ")"))
  h.appendKernel event

/-- The owner granting again: the event first, the amount check after it. -/
def grantMore (h : Session) (grant : BudgetGrant) : KnlM Session := do
  let _ ← h.appendKernel (grantedEvent grant h.scope.id)
  let scope ← h.scope.grantMore grant
  return { h with scope := scope }

/-- Ask the budget to allow `amount`. -/
def reserve (h : Session) (amount : I64) : KnlM Bool := do
  if h.closed then throw (.closed CLOSED)
  checkAmount amount
  let (committed, cells) ← ask (.appendIf h.store.stream (some BUDGET_KINDS)
    (reserveDecision amount h.scope.id))
  return !(committed.isSome && cells.refused)

/-- Deduct `amount` without asking. -/
def spend (h : Session) (amount : I64) : KnlM Unit := do
  if h.closed then throw (.closed CLOSED)
  checkAmount amount
  let _ ← ask (.appendIf h.store.stream (some BUDGET_KINDS) (spendDecision amount h.scope.id))
  return ()

/-- The two stores share one database. -/
def checkDatabase (parent child : Option String) : Except KnlError Unit :=
  match parent, child with
  | some p, some c =>
      if p = c then .ok ()
      else .error (.validation ("a child opens on its parent's database, and a tree is one " ++
        "log: the parent is on " ++ quoted p ++ " and the child was given " ++ quoted c))
  | _, _ =>
      .error (.validation ("a child opens on its parent's database, and one of the two " ++
        "stores keeps a single stream with no database to share"))

/-- What an allocation of `h` is decided from. -/
def plan (h : Session) (childScope childStream owner : String) (allocation : Allocation)
    (labels : Option Obj) : AllocationPlan :=
  let parentTag := h.scope.grant.bind BudgetGrant.tag
  { amount := allocation.amount
    parentTag := parentTag
    childTag := allocation.tag <|> parentTag
    parentScope := h.scope.id
    childScope := childScope
    parent := h.id
    child := childStream
    owner := owner
    labels := labels }

section Plan

variable (h : Session) (childScope childStream owner : String) (allocation : Allocation)
variable (labels : Option Obj)

@[simp] theorem plan_child :
    (h.plan childScope childStream owner allocation labels).child = childStream := rfl

@[simp] theorem plan_amount :
    (h.plan childScope childStream owner allocation labels).amount = allocation.amount := rfl

@[simp] theorem plan_parent :
    (h.plan childScope childStream owner allocation labels).parent = h.id := rfl

@[simp] theorem plan_labels :
    (h.plan childScope childStream owner allocation labels).labels = labels := rfl

end Plan

/-- Open a session from this one, paid for out of this one's balance. -/
def openChild (h : Session) (minted : Minted) (childScope childStream owner : String)
    (allocation : Allocation) (labels : Option Obj) (childStore : Store) : KnlM Session := do
  if h.closed then throw (.closed (CLOSED ++ " (a child is opened from an open parent)"))
  checkAmount allocation.amount
  checkDatabase h.store.database childStore.database
  -- one transaction over both streams: the look at the child's and the three events
  let (committed, cells) ← ask (.appendIfMany h.store.stream childStream
    (some ALLOCATION_KINDS)
    (allocationDecision (h.plan childScope childStream owner allocation labels)))
  if cells.occupied then
    throw (.validation ("a child opens on a stream of its own, and " ++ quoted childStream ++
      " already has events on it: pass a stream nothing has been written to (nothing was " ++
      "written here, on either side)"))
  if committed.isNone || cells.ended then
    throw (.closed (CLOSED ++ " (the parent's log already carries its ending)"))
  if cells.refused then
    throw (.refused ("the parent's balance is " ++ toString cells.measured.val ++
      ", which does not cover an allocation of " ++ toString allocation.amount.val ++
      "; the refusal is in the log and no child was opened"))
  -- the allocation is committed by now, whatever becomes of the resume
  let child ← resume minted none childStore
  return child.adoptId childStream

/-! ### Reading and closing -/

/-- The remaining balance, and the handle with the fold it now holds. -/
def remaining (h : Session) : KnlM (Session × Option I64) := do
  let head ← ask (.head h.store.stream)
  let head := head.getD 0
  if head ≤ h.balance.1 then return (h, h.balance.2)
  let ledger ← ask (.readKinds h.store.stream (some BUDGET_KINDS) 0 none)
  let balance := foldBalance ledger
  return ({ h with balance := (head, balance) }, balance)

/-- End the session, recording the children that had not ended. -/
def closeWith (h : Session) (reason detail : Option String) : KnlM Session := do
  if h.closed then return h
  let _ ← ask (.appendWithOpenChildren h.store.stream childScan (closingEvent reason detail))
  return { h with closed := true }

/-- End the session without waiting for the write. -/
def closeDetached (h : Session) (reason : String) : KnlM Session := do
  if h.closed then return h
  tell (.detachAppend h.store.stream (closingEvent (some reason) none []))
  return { h with closed := true }

end Session

end AgentBlock.Knl
