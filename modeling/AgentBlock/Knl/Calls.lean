/-
AgentBlock/Knl/Calls.lean

Every call a handle can make, as a program over the store.

`Call` collects the methods and `body` is the program of each.  The equations
`body_*` run each method as far as its next store operation, so nothing after
this module unfolds a method.

Main results:

* `body_*` — what each call does, operation by operation;
* `body_issues` — a call issues what `Issues` says and nothing else.
-/
import AgentBlock.Knl.Entries
import AgentBlock.Lib.Pool

namespace AgentBlock.Knl

open Interleaving

/-! ### Calls and their programs -/

/-- A call on a handle, or the call that makes one. -/
inductive Call where
  | openOn (minted : Minted) (owner : String) (grant : Option BudgetGrant)
      (labels : Option Obj) (store : Store)
  | resume (minted : Minted) (grant : Option BudgetGrant) (store : Store)
  | grantOnResume (h : Session) (grant : BudgetGrant)
  | grantMore (h : Session) (grant : BudgetGrant)
  | openChild (h : Session) (minted : Minted) (childScope childStream owner : String)
      (allocation : Allocation) (labels : Option Obj) (childStore : Store)
  | append (h : Session) (event : Obj)
  | reserve (h : Session) (amount : I64)
  | spend (h : Session) (amount : I64)
  | remaining (h : Session)
  | closeWith (h : Session) (reason detail : Option String)
  | closeDetached (h : Session) (reason : String)

/-- What a call returns. -/
inductive Answer where
  | session (h : Session)
  | allowed (yes : Bool)
  | seq (n : Nat)
  | done
  | balance (h : Session) (b : Option I64)

/-- A call's program. -/
def body : Call → Prog StoreOp StoreOp.Ans (Except KnlError Answer)
  | .openOn m owner grant labels store =>
      (Answer.session <$> Session.openOn m owner grant labels store).run
  | .resume m grant store => (Answer.session <$> Session.resume m grant store).run
  | .grantOnResume h grant => (Answer.session <$> h.grantOnResume grant).run
  | .grantMore h grant => (Answer.session <$> h.grantMore grant).run
  | .openChild h m scope stream owner allocation labels store =>
      (Answer.session <$> h.openChild m scope stream owner allocation labels store).run
  | .append h event => (Answer.seq <$> h.append event).run
  | .reserve h amount => (Answer.allowed <$> h.reserve amount).run
  | .spend h amount => ((fun _ => Answer.done) <$> h.spend amount).run
  | .remaining h => ((fun r => Answer.balance r.1 r.2) <$> h.remaining).run
  | .closeWith h reason detail => (Answer.session <$> h.closeWith reason detail).run
  | .closeDetached h reason => (Answer.session <$> h.closeDetached reason).run

/-- The handle a call is made on. -/
def Call.handle : Call → Option Session
  | .openOn .. | .resume .. => none
  | .grantOnResume h _ | .grantMore h _ | .openChild h .. | .append h _ | .reserve h _
  | .spend h _ | .remaining h | .closeWith h .. | .closeDetached h _ => some h

/-- The stream a call writes to as its own. -/
def Call.stream : Call → String
  | .openOn _ _ _ _ store | .resume _ _ store => store.stream
  | .grantOnResume h _ | .grantMore h _ | .openChild h .. | .append h _ | .reserve h _
  | .spend h _ | .remaining h | .closeWith h .. | .closeDetached h _ => h.store.stream

/-- A call is made on a handle that some opening or resume handed out: its
stream has events.  The id of the handle may be any: an opening and a resume
mint one, and only who calls them adopts the stream for it. -/
def Live (db : Database) (c : Call) : Prop :=
  ∀ h ∈ c.handle, db.stream h.store.stream ≠ []

/-- The handle of the call has adopted its stream as its id. -/
def Call.Adopted (c : Call) : Prop := ∀ h ∈ c.handle, h.id = h.store.stream

instance (db : Database) (c : Call) : Decidable (Live db c) :=
  match hc : c.handle with
  | none => .isTrue (by simp [Live, hc])
  | some h => decidable_of_iff (db.stream h.store.stream ≠ []) (by simp [Live, hc])

instance (c : Call) : Decidable c.Adopted :=
  match hc : c.handle with
  | none => .isTrue (by simp [Call.Adopted, hc])
  | some h => decidable_of_iff (h.id = h.store.stream) (by simp [Call.Adopted, hc])

/-! ### Programs, operation by operation -/

theorem op_congr {α : Type} (op : StoreOp) {k k' : op.Ans → Prog StoreOp StoreOp.Ans α}
    (h : ∀ a, k a = k' a) : Prog.op op k = Prog.op op k' :=
  congrArg _ (funext h)

/-- Go on with a reply, or fail with the store's error. -/
def onReply {op : StoreOp} {α : Type} (f : op.Reply → Prog StoreOp StoreOp.Ans (Except KnlError α)) :
    op.Ans → Prog StoreOp StoreOp.Ans (Except KnlError α)
  | .error e => .ret (.error e)
  | .ok r => f r

theorem body_openOn (m : Minted) (owner : String) (grant : Option BudgetGrant)
    (labels : Option Obj) (store : Store) :
    body (.openOn m owner grant labels store) =
      .op (.appendMany store.stream (openedEvent owner m.scopeId labels ::
        (grant.map fun g => grantedEvent g m.scopeId).toList))
        (onReply fun _ => .ret (.ok (.session
          ⟨m.id, ⟨m.scopeId, owner, grant⟩, store, (0, none), false⟩))) := by
  refine op_congr _ fun a => ?_
  cases a <;> rfl

/-- What a grant on a resume is answered. -/
def resumeGrantAnswer (h : Session) (grant : BudgetGrant) (committed : Option Committed) :
    Except KnlError Answer :=
  if committed.isNone then
    .error (.validation ("this stream opened with no budget, and a resume does not give " ++
      "one: a session's quota is settled when it opens (open a new session with the " ++
      "grant, or resume without one)"))
  else .ok (.session { h with scope := { h.scope with grant := some grant } })

theorem body_grantOnResume (h : Session) (grant : BudgetGrant) :
    body (.grantOnResume h grant) =
      match checkAmount grant.amount with
      | .error e => .ret (.error e)
      | .ok () => .op (.appendIf h.store.stream (some BUDGET_KINDS)
          (resumeGrantDecision grant h.scope.id))
          (onReply fun r => .ret (resumeGrantAnswer h grant r.1)) := by
  cases hg : checkAmount grant.amount with
  | error e =>
      simp only [body, Session.grantOnResume, hg]
      rfl
  | ok u =>
      simp only [body, Session.grantOnResume, hg]
      refine op_congr _ fun a => ?_
      rcases a with e | ⟨c | c, cells⟩
      · rfl
      · rfl
      · simp only [Scope.grantMore, hg]
        rfl

theorem body_grantMore (h : Session) (grant : BudgetGrant) :
    body (.grantMore h grant) =
      if h.closed then .ret (.error (.closed CLOSED))
      else .op (.append h.store.stream (grantedEvent grant h.scope.id))
        (onReply fun _ => match checkAmount grant.amount with
          | .error e => .ret (.error e)
          | .ok () => .ret (.ok (.session
              { h with scope := { h.scope with grant := some grant } }))) := by
  simp only [body, Session.grantMore, Session.appendKernel]
  split
  · rfl
  · refine op_congr _ fun a => ?_
    cases a with
    | error e => rfl
    | ok c =>
        simp only [Scope.grantMore]
        cases checkAmount grant.amount <;> rfl

theorem body_append (h : Session) (event : Obj) :
    body (.append h event) =
      if isKernelOnly (kindOf event) then
        .ret (.error (.validation (quoted (kindOf event) ++
          " is written by the kernel only (" ++ kernelOnlyHint (kindOf event) ++ ")")))
      else if h.closed then .ret (.error (.closed CLOSED))
      else .op (.append h.store.stream event) (onReply fun c => .ret (.ok (.seq c.seq))) := by
  simp only [body, Session.append, Session.appendKernel]
  split
  · rfl
  · split
    · rfl
    · refine op_congr _ fun a => ?_
      cases a <;> rfl

theorem body_reserve (h : Session) (n : I64) :
    body (.reserve h n) =
      if h.closed then .ret (.error (.closed CLOSED))
      else match checkAmount n with
        | .error e => .ret (.error e)
        | .ok () => .op (.appendIf h.store.stream (some BUDGET_KINDS)
            (reserveDecision n h.scope.id))
            (onReply fun r => .ret (.ok (.allowed !(r.1.isSome && r.2.refused)))) := by
  simp only [body, Session.reserve]
  split
  · rfl
  · cases checkAmount n with
    | error e => rfl
    | ok u =>
        refine op_congr _ fun a => ?_
        cases a <;> rfl

theorem body_spend (h : Session) (n : I64) :
    body (.spend h n) =
      if h.closed then .ret (.error (.closed CLOSED))
      else match checkAmount n with
        | .error e => .ret (.error e)
        | .ok () => .op (.appendIf h.store.stream (some BUDGET_KINDS)
            (spendDecision n h.scope.id)) (onReply fun _ => .ret (.ok .done)) := by
  simp only [body, Session.spend]
  split
  · rfl
  · cases checkAmount n with
    | error e => rfl
    | ok u =>
        refine op_congr _ fun a => ?_
        cases a <;> rfl

theorem body_resume (m : Minted) (grant : Option BudgetGrant) (store : Store) :
    body (.resume m grant store) =
      .op (.readKinds store.stream none 0 none) (onReply fun log =>
        match log.find? fun event => event.kind = KIND_SESSION_OPENED with
        | none => .ret (.error (.validation
            "stream has no session to resume (no session_opened event)"))
        | some opened => .op (.readKinds store.stream (some [KIND_SESSION_CLOSED]) 0 (some 1))
            (onReply fun ending =>
              if ¬ ending.isEmpty then
                .ret (.error (.closed (CLOSED ++ " (disposable; open a new session)")))
              else match grant with
                | none => .ret (.ok (.session (Session.restored m opened log store)))
                | some g => body (.grantOnResume (Session.restored m opened log store) g))) := by
  refine op_congr _ fun a => ?_
  cases a with
  | error e => rfl
  | ok log =>
      simp only [onReply, Prog.bind, ExceptT.bindCont]
      cases log.find? fun event => event.kind = KIND_SESSION_OPENED with
      | none => rfl
      | some opened =>
          refine op_congr _ fun a => ?_
          rcases a with e | ⟨_ | ⟨_, _⟩⟩
          · rfl
          · cases grant <;> rfl
          · rfl

/-- The child's handle, once its two events are committed. -/
def reopen (m : Minted) (childStream : String) (childStore : Store) :
    Prog StoreOp StoreOp.Ans (Except KnlError Answer) :=
  (Answer.session <$> (do
    let child ← Session.resume m none childStore
    return child.adoptId childStream)).run

/-- What an allocation that did not open a child is answered: the stream was
looked at before the ending, and both before the balance. -/
def allocationError (childStream : String) (amount : I64) (committed : Bool) (cells : Cells) :
    Option KnlError :=
  if cells.occupied then
    some (.validation ("a child opens on a stream of its own, and " ++ quoted childStream ++
      " already has events on it: pass a stream nothing has been written to (nothing was " ++
      "written here, on either side)"))
  else if !committed || cells.ended then
    some (.closed (CLOSED ++ " (the parent's log already carries its ending)"))
  else if cells.refused then
    some (.refused ("the parent's balance is " ++ toString cells.measured.val ++
      ", which does not cover an allocation of " ++ toString amount.val ++
      "; the refusal is in the log and no child was opened"))
  else none

theorem reopen_eq (m : Minted) (childStream : String) (store : Store) :
    reopen m childStream store =
      .op (.readKinds store.stream none 0 none) (onReply fun log =>
        match log.find? fun event => event.kind = KIND_SESSION_OPENED with
        | none => .ret (.error (.validation
            "stream has no session to resume (no session_opened event)"))
        | some opened => .op (.readKinds store.stream (some [KIND_SESSION_CLOSED]) 0 (some 1))
            (onReply fun ending =>
              if ¬ ending.isEmpty then
                .ret (.error (.closed (CLOSED ++ " (disposable; open a new session)")))
              else .ret (.ok (.session
                ((Session.restored m opened log store).adoptId childStream))))) := by
  refine op_congr _ fun a => ?_
  cases a with
  | error e => rfl
  | ok log =>
      simp only [onReply, Prog.bind, ExceptT.bindCont]
      cases log.find? fun event => event.kind = KIND_SESSION_OPENED with
      | none => rfl
      | some opened =>
          refine op_congr _ fun a => ?_
          rcases a with e | ⟨_ | ⟨_, _⟩⟩ <;> rfl

theorem body_openChild (h : Session) (m : Minted) (childScope childStream owner : String)
    (allocation : Allocation) (labels : Option Obj) (childStore : Store) :
    body (.openChild h m childScope childStream owner allocation labels childStore) =
      if h.closed then
        .ret (.error (.closed (CLOSED ++ " (a child is opened from an open parent)")))
      else match checkAmount allocation.amount with
        | .error e => .ret (.error e)
        | .ok () => match Session.checkDatabase h.store.database childStore.database with
          | .error e => .ret (.error e)
          | .ok () => .op (.appendIfMany h.store.stream childStream (some ALLOCATION_KINDS)
              (allocationDecision
                (h.plan childScope childStream owner allocation labels)))
              (onReply fun r =>
                match allocationError childStream allocation.amount r.1.isSome r.2 with
                | some e => .ret (.error e)
                | none => reopen m childStream childStore) := by
  simp only [body, Session.openChild]
  split
  · rfl
  · cases checkAmount allocation.amount with
    | error e => rfl
    | ok u =>
        cases Session.checkDatabase h.store.database childStore.database with
        | error e => rfl
        | ok u =>
            refine op_congr _ fun a => ?_
            rcases a with e | ⟨c | c, ended, occupied, refused, measured⟩
            · rfl
            · cases occupied <;> rfl
            · cases occupied <;> cases ended <;> cases refused <;> rfl

theorem body_remaining (h : Session) :
    body (.remaining h) =
      .op (.head h.store.stream) (onReply fun head =>
        if head.getD 0 ≤ h.balance.1 then .ret (.ok (.balance h h.balance.2))
        else .op (.readKinds h.store.stream (some BUDGET_KINDS) 0 none) (onReply fun ledger =>
          .ret (.ok (.balance { h with balance := (head.getD 0, foldBalance ledger) }
            (foldBalance ledger))))) := by
  refine op_congr _ fun a => ?_
  cases a with
  | error e => rfl
  | ok head =>
      simp only [onReply, Prog.bind, ExceptT.bindCont]
      by_cases hh : head.getD 0 ≤ h.balance.1
      · simp only [hh, if_true]
        rfl
      · simp only [hh, if_false]
        refine op_congr _ fun a => ?_
        cases a <;> rfl

theorem body_closeWith (h : Session) (reason detail : Option String) :
    body (.closeWith h reason detail) =
      if h.closed then .ret (.ok (.session h))
      else .op (.appendWithOpenChildren h.store.stream childScan (closingEvent reason detail))
        (onReply fun _ => .ret (.ok (.session { h with closed := true }))) := by
  simp only [body, Session.closeWith]
  split
  · rfl
  · refine op_congr _ fun a => ?_
    cases a <;> rfl

theorem body_closeDetached (h : Session) (reason : String) :
    body (.closeDetached h reason) =
      if h.closed then .ret (.ok (.session h))
      else .op (.detachAppend h.store.stream (closingEvent (some reason) none []))
        fun _ => .ret (.ok (.session { h with closed := true })) := by
  simp only [body, Session.closeDetached]
  split <;> rfl

/-! ### What each call can issue -/

/-- The store operations of a call.  A read moves nothing, so a call may issue
any read of any stream; every write is listed with what was checked before
it. -/
inductive Issues : Call → StoreOp → Prop
  | read (c : Call) (s : String) (kinds : Option (List String)) (fromSeq : Nat)
      (limit : Option Nat) : Issues c (.readKinds s kinds fromSeq limit)
  | head (c : Call) (s : String) : Issues c (.head s)
  | openOn (m : Minted) (owner : String) (grant : Option BudgetGrant)
      (labels : Option Obj) (store : Store) :
      Issues (.openOn m owner grant labels store)
        (.appendMany store.stream (openedEvent owner m.scopeId labels ::
          (grant.map fun g => grantedEvent g m.scopeId).toList))
  | resume (m : Minted) {grant : BudgetGrant} (store : Store) (scopeId : String) :
      checkAmount grant.amount = .ok () →
      Issues (.resume m (some grant) store)
        (.appendIf store.stream (some BUDGET_KINDS) (resumeGrantDecision grant scopeId))
  | grantOnResume (h : Session) {grant : BudgetGrant} :
      checkAmount grant.amount = .ok () →
      Issues (.grantOnResume h grant)
        (.appendIf h.store.stream (some BUDGET_KINDS) (resumeGrantDecision grant h.scope.id))
  | grantMore (h : Session) (grant : BudgetGrant) : h.closed = false →
      Issues (.grantMore h grant) (.append h.store.stream (grantedEvent grant h.scope.id))
  | openChild (h : Session) (m : Minted) (childScope childStream owner : String)
      {allocation : Allocation} (labels : Option Obj) (childStore : Store) :
      checkAmount allocation.amount = .ok () →
      Issues (.openChild h m childScope childStream owner allocation labels childStore)
        (.appendIfMany h.store.stream childStream (some ALLOCATION_KINDS)
          (allocationDecision (h.plan childScope childStream owner allocation labels)))
  | append (h : Session) {event : Obj} : isKernelOnly (kindOf event) = false →
      Issues (.append h event) (.append h.store.stream event)
  | reserve (h : Session) {n : I64} : checkAmount n = .ok () →
      Issues (.reserve h n)
        (.appendIf h.store.stream (some BUDGET_KINDS) (reserveDecision n h.scope.id))
  | spend (h : Session) {n : I64} : checkAmount n = .ok () →
      Issues (.spend h n)
        (.appendIf h.store.stream (some BUDGET_KINDS) (spendDecision n h.scope.id))
  | closeWith (h : Session) (reason detail : Option String) :
      Issues (.closeWith h reason detail)
        (.appendWithOpenChildren h.store.stream childScan (closingEvent reason detail))
  | closeDetached (h : Session) (reason : String) :
      Issues (.closeDetached h reason)
        (.detachAppend h.store.stream (closingEvent (some reason) none []))

section All

variable {α : Type} {φ : StoreOp → Prop}

theorem all_onReply {op : StoreOp}
    {f : op.Reply → Prog StoreOp StoreOp.Ans (Except KnlError α)}
    (hf : ∀ r, (f r).All φ) (a : op.Ans) : (onReply f a).All φ := by
  cases a with
  | error e => trivial
  | ok r => exact hf r

theorem all_resumeGrant {h : Session} {grant : BudgetGrant}
    (hφ : checkAmount grant.amount = .ok () →
      φ (.appendIf h.store.stream (some BUDGET_KINDS) (resumeGrantDecision grant h.scope.id))) :
    (body (.grantOnResume h grant)).All φ := by
  rw [body_grantOnResume]
  split
  · trivial
  · exact ⟨hφ ‹_›, all_onReply fun _ => trivial⟩

end All

/-- **A call issues what `Issues` says and nothing else.** -/
theorem body_issues (c : Call) : (body c).All (Issues c) := by
  cases c with
  | openOn m owner grant labels store =>
      rw [body_openOn]
      exact ⟨.openOn .., all_onReply fun _ => trivial⟩
  | resume m grant store =>
      rw [body_resume]
      refine ⟨.read .., all_onReply fun log => ?_⟩
      split
      · trivial
      · refine ⟨.read .., all_onReply fun ending => ?_⟩
        split
        · trivial
        · split
          · trivial
          · exact all_resumeGrant fun hg => .resume _ _ _ hg
  | grantOnResume h grant => exact all_resumeGrant fun hg => .grantOnResume _ hg
  | grantMore h grant =>
      rw [body_grantMore]
      split
      · trivial
      · rename_i hopen
        refine ⟨.grantMore _ _ (by simpa using hopen), all_onReply fun _ => ?_⟩
        split <;> trivial
  | openChild h m childScope childStream owner allocation labels childStore =>
      rw [body_openChild]
      split
      · trivial
      · split
        · trivial
        · split
          · trivial
          · refine ⟨.openChild _ _ _ _ _ _ _ ‹_›, all_onReply fun r => ?_⟩
            split
            · trivial
            · rw [reopen_eq]
              refine ⟨.read .., all_onReply fun log => ?_⟩
              split
              · trivial
              · refine ⟨.read .., all_onReply fun ending => ?_⟩
                split <;> trivial
  | append h event =>
      rw [body_append]
      split
      · trivial
      · rename_i hk
        split
        · trivial
        · exact ⟨.append _ (by simpa using hk), all_onReply fun _ => trivial⟩
  | reserve h n =>
      rw [body_reserve]
      split
      · trivial
      · split
        · trivial
        · exact ⟨.reserve _ ‹_›, all_onReply fun _ => trivial⟩
  | spend h n =>
      rw [body_spend]
      split
      · trivial
      · split
        · trivial
        · exact ⟨.spend _ ‹_›, all_onReply fun _ => trivial⟩
  | remaining h =>
      rw [body_remaining]
      refine ⟨.head .., all_onReply fun head => ?_⟩
      split
      · trivial
      · exact ⟨.read .., all_onReply fun _ => trivial⟩
  | closeWith h reason detail =>
      rw [body_closeWith]
      split
      · trivial
      · exact ⟨.closeWith .., all_onReply fun _ => trivial⟩
  | closeDetached h reason =>
      rw [body_closeDetached]
      split
      · trivial
      · exact ⟨.closeDetached .., fun _ => trivial⟩

/-- A handle that is live stays live. -/
theorem Live.grows {db db' : Database} {c : Call} (h : Live db c) (hp : db <+: db') :
    Live db' c := by
  intro s hs hnil
  exact h s hs (List.prefix_nil.mp (hnil ▸ Database.stream_grows hp))

/-- Calls on live handles, under any further condition that lasts. -/
theorem governed (ok : Call → Prop) :
    Pool.Governed Sem body (fun db c => Live db c ∧ ok c) Issues where
  all := body_issues
  persists := fun _ _ _ _ _ hc hsem => ⟨hc.1.grows hsem.appends, hc.2⟩

end AgentBlock.Knl
