/-
AgentBlock/Knl/Ending.lean

One handle on a stream, from its first call to the drain of the log behind it.

A method hands its write to the store and waits.  While it waits it may be
cancelled, and then the write is with the store still, and nobody is told what
becomes of it.  The store takes what it was handed in order, and may fail at any
of it.  At the end the handle is dropped, and an open one hands over its ending
without waiting.

Main results:

* `Phase.step` — what one step does to the endings of the handle, unless a
  close that was cancelled is recorded;
* `one_ending` — every run without such a step;
* `two_endings` — a run that has one, and a drop whose write is lost.
-/
import AgentBlock.Knl.Remaining
import AgentBlock.Lib.Steps

namespace AgentBlock.Knl.Ending

open Interleaving

def CLOSE_REASON_SCOPE_EXIT : String := "scope_exit"
def CLOSE_REASON_ERROR : String := "error"
def CLOSE_REASON_DROPPED : String := "dropped"
def DETAIL_MAX_CHARS : Nat := 200

/-! ### The methods of a handle -/

/-- A text cut to what a close records of it. -/
def truncated (text : String) : String :=
  if text.toList.length ≤ DETAIL_MAX_CHARS then text
  else String.ofList (text.toList.take DETAIL_MAX_CHARS) ++ "..."

/-- The end of the scope a handle was bound to, and the text of the error that
ended it.  On the way of an error a close that fails does not raise. -/
def scopeEnd (h : Session) (error : Option String) : KnlM Session :=
  if h.closed then pure h
  else
    let reason := if error.isSome then CLOSE_REASON_ERROR else CLOSE_REASON_SCOPE_EXIT
    ExceptT.mk do
      match ← (h.closeWith (some reason) (error.map truncated)).run with
      | .ok h' => pure (.ok h')
      | .error e => pure (if error.isSome then .ok h else .error e)

inductive Method where
  | append (event : Obj)
  | reserve (amount : I64)
  | spend (amount : I64)
  | close (reason detail : Option String)
  | scopeEnd (error : Option String)

/-- What a method does. -/
def Method.program (h : Session) : Method → Prog StoreOp StoreOp.Ans (Except KnlError Answer)
  | .append event => body (.append h event)
  | .reserve amount => body (.reserve h amount)
  | .spend amount => body (.spend h amount)
  | .close reason detail => body (.closeWith h reason (detail.map truncated))
  | .scopeEnd error => (Answer.session <$> Ending.scopeEnd h error).run

/-- The reason a method would end the session with. -/
def Method.reason : Method → Option String
  | .close reason _ => some (reason.getD DEFAULT_CLOSE_REASON)
  | .scopeEnd error => some (if error.isSome then CLOSE_REASON_ERROR else CLOSE_REASON_SCOPE_EXIT)
  | _ => none

/-! ### The handle and its store -/

/-- What the store makes of a call: it does its work, or fails. -/
inductive Result where
  | done (clock : Nat → Nat)
  | failed (e : KnlError)

/-- A store call with a given result. -/
def Result.on (r : Result) (op : StoreOp) (db : Database) : op.Ans × Database :=
  match r with
  | .done clock => exec clock db op
  | .failed e => (.error e, db)

/-- A method in flight: about to go on, or waiting for the store. -/
inductive InFlight where
  | running (m : Method) (p : Prog StoreOp StoreOp.Ans (Except KnlError Answer))
  | waiting (m : Method) (op : StoreOp)
      (k : op.Ans → Prog StoreOp StoreOp.Ans (Except KnlError Answer))

/-- A write that nobody waits for: what it would end the session with, and
whether it is the drop's. -/
structure Job where
  op : StoreOp
  reason : Option String
  ofDrop : Bool

/-- `written` are the handle's events in the order they landed, `reasons` those
of the closes that were recorded, and `lost` says that the drop's was not. -/
structure State where
  db : Database
  handle : Session
  call : Option InFlight := none
  queue : List Job := []
  dropped : Bool := false
  written : List Current := []
  reasons : List String := []
  lost : Bool := false

inductive Act where
  | call (m : Method)
  | poll
  | store (r : Result)
  | cancel
  | drop
  | other (op : StoreOp) (r : Result)

/-- The rows that a call added. -/
def added (db db' : Database) : List Current := (db'.drop db.length).map Row.event

/-- A call of the handle came back from the store. -/
def State.landing (st : State) (db : Database) (reason : Option String) : State :=
  { st with
    db := db
    written := st.written ++ added st.db db
    reasons := if (added st.db db).isEmpty then st.reasons else st.reasons ++ reason.toList }

/-- The handle a method leaves. -/
def afterwards (h : Session) : Except KnlError Answer → Session
  | .ok (.session h') => h'
  | _ => h

/-- What the drop hands to the store. -/
def dropJob (h : Session) : List Job :=
  if h.closed then []
  else [⟨.detachAppend h.store.stream (closingEvent (some CLOSE_REASON_DROPPED) none []),
    some CLOSE_REASON_DROPPED, true⟩]

/-- One step.  A method is called only when none is in flight, for it holds the
handle's lock, and a handle is dropped only when nothing holds it. -/
def step (st : State) : Act → Option State
  | .call m =>
      if st.call.isNone && !st.dropped then
        some { st with call := some (.running m (m.program st.handle)) }
      else none
  | .poll =>
      match st.call with
      | some (.running m (.op op k)) => some { st with call := some (.waiting m op k) }
      | some (.running _ (.ret r)) =>
          some { st with call := none, handle := afterwards st.handle r }
      | _ => none
  -- the store works off what was left behind before it answers a method that waits
  | .store r =>
      match st.queue with
      | job :: rest =>
          let db := (r.on job.op st.db).2
          some { st.landing db job.reason with
            queue := rest
            lost := st.lost || (job.ofDrop && (added st.db db).isEmpty) }
      | [] =>
          match st.call with
          | some (.waiting m op k) =>
              some { st.landing (r.on op st.db).2 m.reason with
                call := some (.running m (k (r.on op st.db).1)) }
          | _ => none
  | .cancel =>
      match st.call with
      | some (.running ..) => some { st with call := none }
      | some (.waiting m op _) =>
          some { st with call := none, queue := st.queue ++ [⟨op, m.reason, false⟩] }
      | none => none
  | .drop =>
      if st.call.isNone && !st.dropped then
        some { st with
          queue := st.queue ++ dropJob st.handle
          handle := { st.handle with closed := true }
          dropped := true }
      else none
  | .other op r => some { st with db := (r.on op st.db).2 }

/-- A close that was cancelled is recorded: the store carries out the write it
was handed, or had done so when the cancel came. -/
def Slip (st : State) : Act → Prop
  | .store r => ∃ job rest, st.queue = job :: rest ∧ job.ofDrop = false ∧ job.reason ≠ none ∧
      added st.db (r.on job.op st.db).2 ≠ []
  | .cancel => ∃ m h, st.call = some (.running m (.ret (.ok (.session h)))) ∧
      h.closed = true ∧ st.handle.closed = false
  | _ => False

theorem not_slip_store {st : State} (hq : st.queue = []) (r : Result) :
    ¬ Slip st (.store r) := by
  rintro ⟨job, rest, hjob, -⟩
  rw [hq] at hjob
  cases hjob

/-! ### What a method's write can be -/

section Writes

variable {db : Database} {s : String}

@[simp] theorem added_self (db : Database) : added db db = [] := by
  simp [added]

@[simp] theorem added_one (db : Database) (row : Row) : added db (db ++ [row]) = [row.event] := by
  simp [added]

theorem Result.on_sem (r : Result) (op : StoreOp) (db : Database) :
    (∃ e, r.on op db = (.error e, db)) ∨ Sem op db (r.on op db).1 (r.on op db).2 := by
  cases r with
  | done clock => exact Or.inr (.done clock op db)
  | failed e => exact Or.inl ⟨e, rfl⟩

theorem Result.on_grows (r : Result) (op : StoreOp) (db : Database) : db <+: (r.on op db).2 := by
  obtain ⟨e, he⟩ | hsem := r.on_sem op db
  · rw [he]
  · exact hsem.appends

/-- A write that adds nothing, or one event to the stream that is no ending. -/
def NoEnding (s : String) (op : StoreOp) : Prop :=
  ∀ (r : Result) (db : Database), (r.on op db).2 = db ∨
    ∃ e : Current, e.kind ≠ KIND_SESSION_CLOSED ∧ (r.on op db).2 = db ++ [⟨s, e⟩]

/-- The event is an ending for this reason. -/
def Ends (e : Current) (reason : String) : Prop :=
  e.kind = KIND_SESSION_CLOSED ∧ stringField e FIELD_REASON = some reason

theorem ends_closing (clock : Nat → Nat) (db : Database) (s : String) (reason detail : Option String)
    (children : List String) :
    Ends (landed clock db s (closingEvent reason detail children))
      (reason.getD DEFAULT_CLOSE_REASON) := by
  refine ⟨kind_of_view (view_closing ..), ?_⟩
  cases detail <;> cases children <;> simp [stringField, dataField, closingEvent]

theorem noEnding_append {event : Obj} (h : isKernelOnly (kindOf event) = false) :
    NoEnding s (.append s event) := by
  intro r db
  obtain ⟨e, he⟩ | hsem := r.on_sem (.append s event) db
  · exact Or.inl (congrArg Prod.snd he)
  rcases append_cases hsem with ⟨-, -, -, hdb⟩ | ⟨-, -, -, hdb⟩ | ⟨clock, -, -, -, hdb⟩
  · exact Or.inl hdb
  · exact Or.inl hdb
  · refine Or.inr ⟨landed clock db s event, ?_, hdb⟩
    rw [landed_kind]
    intro hk
    rw [hk] at h
    cases h

theorem noEnding_reserve {n : I64} {scope : String} :
    NoEnding s (.appendIf s (some BUDGET_KINDS) (reserveDecision n scope)) := by
  intro r db
  obtain ⟨e, he⟩ | hsem := r.on_sem (.appendIf s (some BUDGET_KINDS) (reserveDecision n scope)) db
  · exact Or.inl (congrArg Prod.snd he)
  rcases reserve_cases hsem with ⟨-, -, -, hdb⟩ | ⟨-, -, hdb⟩ | ⟨-, ev, -, -, -, hv, -, hdb⟩ |
    ⟨-, ev, -, -, -, hv, -, hdb⟩
  · exact Or.inl hdb
  · exact Or.inl hdb
  · exact Or.inr ⟨ev, by simp [kind_of_view hv], hdb⟩
  · exact Or.inr ⟨ev, by simp [kind_of_view hv], hdb⟩

theorem noEnding_spend {n : I64} {scope : String} :
    NoEnding s (.appendIf s (some BUDGET_KINDS) (spendDecision n scope)) := by
  intro r db
  obtain ⟨e, he⟩ | hsem := r.on_sem (.appendIf s (some BUDGET_KINDS) (spendDecision n scope)) db
  · exact Or.inl (congrArg Prod.snd he)
  rcases spend_cases hsem with ⟨-, -, -, hdb⟩ | ⟨-, -, hdb⟩ | ⟨ev, -, -, hv, -, hdb⟩
  · exact Or.inl hdb
  · exact Or.inl hdb
  · exact Or.inr ⟨ev, by simp [kind_of_view hv], hdb⟩

/-- **A close at the store**: it failed, or the ending landed. -/
theorem closing_on (r : Result) (db : Database) (s : String) (reason detail : Option String) :
    (∃ e, r.on (.appendWithOpenChildren s childScan (closingEvent reason detail)) db =
      (.error e, db)) ∨
    ∃ c ev, r.on (.appendWithOpenChildren s childScan (closingEvent reason detail)) db =
      (.ok c, db ++ [⟨s, ev⟩]) ∧ Ends ev (reason.getD DEFAULT_CLOSE_REASON) := by
  cases r with
  | failed e => exact Or.inl ⟨e, rfl⟩
  | done clock =>
      right
      have hexec : exec clock db (.appendWithOpenChildren s childScan (closingEvent reason detail)) =
          (.ok (lastCommitted (appendRow clock db s
            (closingEvent reason detail (openChildrenIn db s childScan))) s),
            appendRow clock db s (closingEvent reason detail (openChildrenIn db s childScan))) := by
        simp only [exec, validate_closing]
      exact ⟨_, _, hexec, ends_closing clock db s reason detail _⟩

/-- The drop's write at the store. -/
theorem dropped_on (r : Result) (db : Database) (s reason : String) :
    (r.on (.detachAppend s (closingEvent (some reason) none [])) db).2 = db ∨
    ∃ ev, (r.on (.detachAppend s (closingEvent (some reason) none [])) db).2 = db ++ [⟨s, ev⟩] ∧
      Ends ev reason := by
  cases r with
  | failed e => exact Or.inl rfl
  | done clock =>
      right
      refine ⟨_, ?_, ends_closing clock db s (some reason) none []⟩
      simp only [Result.on, exec, validate_closing]
      rfl

end Writes

/-! ### The program of a method -/

/-- The program of a method on an open handle: it is refused, or makes one write
that is no ending, or makes the close's, and only that one leaves a closed
handle. -/
inductive Opened (h : Session) (m : Method) :
    Prog StoreOp StoreOp.Ans (Except KnlError Answer) → Prop
  | refused {e : KnlError} : Opened h m (.ret (.error e))
  | writes {op : StoreOp} {k : op.Ans → Prog StoreOp StoreOp.Ans (Except KnlError Answer)} :
      m.reason = none → NoEnding h.store.stream op →
      (∀ a, ∃ r, k a = .ret r ∧ afterwards h r = h) → Opened h m (.op op k)
  | closes {reason detail : Option String}
      {k : StoreOp.Ans (.appendWithOpenChildren h.store.stream childScan
        (closingEvent reason detail)) → Prog StoreOp StoreOp.Ans (Except KnlError Answer)} :
      m.reason = some (reason.getD DEFAULT_CLOSE_REASON) →
      (∀ c, k (.ok c) = .ret (.ok (.session { h with closed := true }))) →
      (∀ e, ∃ r, k (.error e) = .ret r ∧ afterwards h r = h) →
      Opened h m (.op (.appendWithOpenChildren h.store.stream childScan
        (closingEvent reason detail)) k)

section Programs

variable {h : Session}

theorem program_open (hopen : h.closed = false) (m : Method) : Opened h m (m.program h) := by
  cases m with
  | append event =>
      show Opened h _ (body (.append h event))
      rw [body_append]
      split
      · exact .refused
      · next hkind =>
        rw [hopen]
        refine .writes rfl (noEnding_append (by simpa using hkind)) fun a => ?_
        cases a with
        | error e => exact ⟨_, rfl, rfl⟩
        | ok c => exact ⟨_, rfl, rfl⟩
  | reserve n =>
      show Opened h _ (body (.reserve h n))
      rw [body_reserve, hopen]
      cases checkAmount n with
      | error e => exact .refused
      | ok _ =>
          refine .writes rfl noEnding_reserve fun a => ?_
          cases a with
          | error e => exact ⟨_, rfl, rfl⟩
          | ok c => exact ⟨_, rfl, rfl⟩
  | spend n =>
      show Opened h _ (body (.spend h n))
      rw [body_spend, hopen]
      cases checkAmount n with
      | error e => exact .refused
      | ok _ =>
          refine .writes rfl noEnding_spend fun a => ?_
          cases a with
          | error e => exact ⟨_, rfl, rfl⟩
          | ok c => exact ⟨_, rfl, rfl⟩
  | close reason detail =>
      show Opened h _ (body (.closeWith h reason (detail.map truncated)))
      rw [body_closeWith, hopen]
      exact .closes rfl (fun _ => rfl) fun e => ⟨_, rfl, rfl⟩
  | scopeEnd error =>
      have hprogram : (Method.scopeEnd error).program h =
          .op (.appendWithOpenChildren h.store.stream childScan
            (closingEvent (some (if error.isSome then CLOSE_REASON_ERROR
              else CLOSE_REASON_SCOPE_EXIT)) (error.map truncated))) (fun
            | .ok _ => .ret (.ok (.session { h with closed := true }))
            | .error e => .ret (if error.isSome then .ok (.session h) else .error e)) := by
        show (Answer.session <$> Ending.scopeEnd h error).run = _
        rw [Ending.scopeEnd, if_neg (by rw [hopen]; exact nofun)]
        simp only [Session.closeWith, hopen]
        refine op_congr _ fun a => ?_
        cases a with
        | ok c => rfl
        | error e => cases error <;> rfl
      rw [hprogram]
      refine .closes rfl (fun _ => rfl) fun e => ⟨_, rfl, ?_⟩
      cases error <;> rfl

theorem program_closed (hclosed : h.closed = true) (m : Method) :
    ∃ r, m.program h = .ret r ∧ afterwards h r = h := by
  cases m with
  | append event =>
      show ∃ r, body (.append h event) = .ret r ∧ _
      rw [body_append, hclosed]
      split
      · exact ⟨_, rfl, rfl⟩
      · exact ⟨_, rfl, rfl⟩
  | reserve n =>
      show ∃ r, body (.reserve h n) = .ret r ∧ _
      rw [body_reserve, hclosed]
      exact ⟨_, rfl, rfl⟩
  | spend n =>
      show ∃ r, body (.spend h n) = .ret r ∧ _
      rw [body_spend, hclosed]
      exact ⟨_, rfl, rfl⟩
  | close reason detail =>
      show ∃ r, body (.closeWith h reason (detail.map truncated)) = .ret r ∧ _
      rw [body_closeWith, hclosed]
      exact ⟨_, rfl, rfl⟩
  | scopeEnd error =>
      refine ⟨.ok (.session h), ?_, rfl⟩
      show (Answer.session <$> Ending.scopeEnd h error).run = _
      rw [Ending.scopeEnd, if_pos hclosed]
      rfl

end Programs

/-! ### Where a run is -/

/-- No ending is among the events. -/
def NoEndings (es : List Current) : Prop := ∀ e ∈ es, e.kind ≠ KIND_SESSION_CLOSED

/-- The last event is the one ending, for the one reason that was recorded. -/
def EndsWith (written : List Current) (reasons : List String) : Prop :=
  ∃ front e reason, written = front ++ [e] ∧ NoEndings front ∧ Ends e reason ∧ reasons = [reason]

/-- A write that a cancelled method left with the store. -/
inductive LeftBehind (s : String) : Job → Prop
  | write {op : StoreOp} : NoEnding s op → LeftBehind s ⟨op, none, false⟩
  | close {reason detail : Option String} :
      LeftBehind s ⟨.appendWithOpenChildren s childScan (closingEvent reason detail),
        some (reason.getD DEFAULT_CLOSE_REASON), false⟩

/-- What is in flight at an open handle. -/
inductive InOrder (h : Session) : Option InFlight → Prop
  | none : InOrder h none
  | running {m : Method} {p : Prog StoreOp StoreOp.Ans (Except KnlError Answer)} :
      Opened h m p → InOrder h (some (.running m p))
  | returning {m : Method} {r : Except KnlError Answer} : afterwards h r = h →
      InOrder h (some (.running m (.ret r)))
  | waiting {m : Method} {op : StoreOp}
      {k : op.Ans → Prog StoreOp StoreOp.Ans (Except KnlError Answer)} :
      Opened h m (.op op k) → InOrder h (some (.waiting m op k))

/-- The life of a handle: open, with a close that was recorded and has not
returned, closed, dropped while its ending is with the store, and gone. -/
inductive Phase : State → Prop
  | open_ {db : Database} {h : Session} {call : Option InFlight} {queue : List Job}
      {written : List Current} : h.closed = false → InOrder h call →
      (∀ job ∈ queue, LeftBehind h.store.stream job) → NoEndings written →
      Phase ⟨db, h, call, queue, false, written, [], false⟩
  | closing {db : Database} {h : Session} {m : Method} {written : List Current}
      {reasons : List String} : h.closed = false → EndsWith written reasons →
      Phase ⟨db, h, some (.running m (.ret (.ok (.session { h with closed := true })))), [], false,
        written, reasons, false⟩
  | closed {db : Database} {h : Session} {call : Option InFlight} {written : List Current}
      {reasons : List String} : h.closed = true →
      (call = none ∨ ∃ m r, call = some (.running m (.ret r)) ∧ afterwards h r = h) →
      EndsWith written reasons → Phase ⟨db, h, call, [], false, written, reasons, false⟩
  | dropping {db : Database} {h : Session} {front : List Job} {written : List Current} :
      h.closed = false → (∀ job ∈ front, LeftBehind h.store.stream job) → NoEndings written →
      Phase ⟨db, { h with closed := true }, none, front ++ dropJob h, true, written, [], false⟩
  | gone {db : Database} {h : Session} {written : List Current} {reasons : List String} :
      EndsWith written reasons → Phase ⟨db, h, none, [], true, written, reasons, false⟩
  | lost {db : Database} {h : Session} {written : List Current} : NoEndings written →
      Phase ⟨db, h, none, [], true, written, [], true⟩

/-- The handle's events are in the log, in this order. -/
def Recorded (st : State) : Prop := st.written.Sublist (st.db.stream st.handle.store.stream)

section Steps

variable {st st' : State} {a : Act}

theorem NoEndings.append {es more : List Current} (h : NoEndings es) (hm : NoEndings more) :
    NoEndings (es ++ more) := fun e he => (List.mem_append.mp he).elim (h e) (hm e)

theorem Recorded.other (h : Recorded st) {db : Database} (hp : st.db <+: db) :
    Recorded { st with db := db } :=
  h.trans (Database.stream_grows hp).sublist

/-- What lands at the end of the log is recorded behind what was. -/
theorem sublist_landing {db db' : Database} {s : String} {written : List Current}
    (h : written.Sublist (db.stream s)) (hdb : db' = db ∨ ∃ e, db' = db ++ [⟨s, e⟩]) :
    (written ++ added db db').Sublist (db'.stream s) := by
  obtain rfl | ⟨e, rfl⟩ := hdb
  · rwa [added_self, List.append_nil]
  · rw [added_one, Database.stream_append]
    refine h.append ?_
    rw [Database.stream_cons_self]
    exact List.Sublist.refl _

end Steps

section Steps

variable {st : State} {db : Database} {h : Session} {written : List Current}

/-- What is left behind lands at the end of the stream, if at all, and what it
adds is an ending only where a close made it. -/
theorem LeftBehind.on {s : String} {job : Job} (hj : LeftBehind s job) (r : Result)
    (db : Database) :
    job.ofDrop = false ∧ ((r.on job.op db).2 = db ∨ ∃ e, (r.on job.op db).2 = db ++ [⟨s, e⟩] ∧
      (job.reason = none → e.kind ≠ KIND_SESSION_CLOSED)) := by
  cases hj with
  | write hw =>
      refine ⟨rfl, (hw r db).imp id ?_⟩
      rintro ⟨e, he, hdb⟩
      exact ⟨e, hdb, fun _ => he⟩
  | @close reason detail =>
      refine ⟨rfl, (closing_on r db s reason detail).imp ?_ ?_⟩
      · rintro ⟨e, he⟩
        exact congrArg Prod.snd he
      · rintro ⟨c, e, he, -⟩
        exact ⟨e, congrArg Prod.snd he, nofun⟩

/-- The store takes a job that was left behind, and no close is recorded. -/
theorem left_lands {job : Job} {rest : List Job} {r : Result} {call : Option InFlight}
    {h' : Session} {dropped : Bool} (hj : LeftBehind h.store.stream job)
    (hno : ¬ Slip ⟨db, h', call, job :: rest, dropped, written, [], false⟩ (.store r))
    (hw : NoEndings written) (hr : written.Sublist (db.stream h.store.stream)) :
    step ⟨db, h', call, job :: rest, dropped, written, [], false⟩ (.store r) =
        some ⟨(r.on job.op db).2, h', call, rest, dropped,
          written ++ added db (r.on job.op db).2, [], false⟩ ∧
      NoEndings (written ++ added db (r.on job.op db).2) ∧
      (written ++ added db (r.on job.op db).2).Sublist
        ((r.on job.op db).2.stream h.store.stream) := by
  obtain ⟨hdrop, hon⟩ := hj.on r db
  have hsub := sublist_landing hr (hon.imp id fun ⟨e, he, _⟩ => ⟨e, he⟩)
  obtain hdb | ⟨e, hdb, hkind⟩ := hon
  · have hadded : added db (r.on job.op db).2 = [] := by rw [hdb, added_self]
    refine ⟨?_, ?_, hsub⟩
    · simp [step, State.landing, hdrop, hadded]
    · rw [hadded, List.append_nil]
      exact hw
  · have hadded : added db (r.on job.op db).2 = [e] := by rw [hdb, added_one]
    have hnone : job.reason = none := by
      by_contra hreason
      exact hno ⟨job, rest, rfl, hdrop, hreason, by rw [hadded]; exact nofun⟩
    refine ⟨?_, ?_, hsub⟩
    · simp [step, State.landing, hdrop, hadded, hnone]
    · rw [hadded]
      refine hw.append fun e' he' => ?_
      obtain rfl := List.mem_singleton.mp he'
      exact hkind hnone

/-- **The store answers the method that waits for it.** -/
theorem answer_step {m : Method} {op : StoreOp} {r : Result} {st' : State}
    {k : op.Ans → Prog StoreOp StoreOp.Ans (Except KnlError Answer)} (hopen : h.closed = false)
    (hp : Opened h m (.op op k)) (hw : NoEndings written)
    (hr : written.Sublist (db.stream h.store.stream))
    (hs : step ⟨db, h, some (.waiting m op k), [], false, written, [], false⟩ (.store r) =
      some st') : Phase st' ∧ Recorded st' := by
  obtain rfl := Option.some.inj hs
  cases hp with
  | writes hreason hnone hk =>
      -- it wrote at most one event, and none that ends the session
      obtain ⟨res, hres, hkeeps⟩ := hk (r.on op db).1
      have hsub := sublist_landing hr ((hnone r db).imp id fun ⟨e, _, he⟩ => ⟨e, he⟩)
      have hw' : NoEndings (written ++ added db (r.on op db).2) := by
        obtain hdb | ⟨e, he, hdb⟩ := hnone r db
        · rw [hdb, added_self, List.append_nil]
          exact hw
        · rw [hdb, added_one]
          refine hw.append fun e' he' => ?_
          obtain rfl := List.mem_singleton.mp he'
          exact he
      have hstate : ({ (⟨db, h, some (.waiting m op k), [], false, written, [], false⟩ :
            State).landing (r.on op db).2 m.reason with
          call := some (.running m (k (r.on op db).1)) } : State) =
          ⟨(r.on op db).2, h, some (.running m (.ret res)), [], false,
            written ++ added db (r.on op db).2, [], false⟩ := by
        simp [State.landing, hreason, hres]
      rw [hstate]
      exact ⟨.open_ hopen (.returning hkeeps) (fun _ hjob => nomatch hjob) hw', hsub⟩
  | @closes reason detail k hreason hok herr =>
      -- the store failed, and nothing was written, or the ending is in the log
      obtain ⟨e, he⟩ | ⟨c, ev, he, hends⟩ := closing_on r db h.store.stream reason detail
      · obtain ⟨res, hres, hkeeps⟩ := herr e
        rw [he, hres]
        have hstate : ({ (⟨db, h, some (.waiting m _ k), [], false, written, [], false⟩ :
              State).landing db m.reason with call := some (.running m (.ret res)) } : State) =
            ⟨db, h, some (.running m (.ret res)), [], false, written, [], false⟩ := by
          simp [State.landing]
        rw [hstate]
        exact ⟨.open_ hopen (.returning hkeeps) (fun _ hjob => nomatch hjob) hw, hr⟩
      · rw [he, hok]
        have hstate : ({ (⟨db, h, some (.waiting m _ k), [], false, written, [], false⟩ :
              State).landing (db ++ [⟨h.store.stream, ev⟩]) m.reason with
            call := some (.running m (.ret (.ok (.session { h with closed := true })))) } : State) =
            ⟨db ++ [⟨h.store.stream, ev⟩], h,
              some (.running m (.ret (.ok (.session { h with closed := true })))), [], false,
              written ++ [ev], [reason.getD DEFAULT_CLOSE_REASON], false⟩ := by
          simp [State.landing, hreason]
        rw [hstate]
        refine ⟨.closing hopen ⟨written, ev, _, rfl, hw, hends, rfl⟩, ?_⟩
        have hsub := sublist_landing hr (Or.inr ⟨ev, rfl⟩)
        rwa [added_one] at hsub

/-- **One step of an open handle.** -/
theorem open_step {a : Act} {st' : State} {call : Option InFlight} {queue : List Job}
    (hopen : h.closed = false) (hcall : InOrder h call)
    (hq : ∀ job ∈ queue, LeftBehind h.store.stream job) (hw : NoEndings written)
    (hr : written.Sublist (db.stream h.store.stream))
    (hno : ¬ Slip ⟨db, h, call, queue, false, written, [], false⟩ a)
    (hs : step ⟨db, h, call, queue, false, written, [], false⟩ a = some st') :
    Phase st' ∧ Recorded st' := by
  cases a with
  | call m =>
      cases hcall with
      | none =>
          obtain rfl := Option.some.inj hs
          exact ⟨.open_ hopen (.running (program_open hopen m)) hq hw, hr⟩
      | running | returning | waiting => cases hs
  | poll =>
      cases hcall with
      | none | waiting => cases hs
      | running hp =>
          cases hp with
          | refused =>
              obtain rfl := Option.some.inj hs
              exact ⟨.open_ hopen .none hq hw, hr⟩
          | writes h₁ h₂ h₃ =>
              obtain rfl := Option.some.inj hs
              exact ⟨.open_ hopen (.waiting (.writes h₁ h₂ h₃)) hq hw, hr⟩
          | closes h₁ h₂ h₃ =>
              obtain rfl := Option.some.inj hs
              exact ⟨.open_ hopen (.waiting (.closes h₁ h₂ h₃)) hq hw, hr⟩
      | @returning m r hkeeps =>
          obtain rfl := Option.some.inj hs
          have hphase : Phase ⟨db, afterwards h r, none, queue, false, written, [], false⟩ := by
            rw [hkeeps]
            exact .open_ hopen .none hq hw
          refine ⟨hphase, ?_⟩
          show written.Sublist (db.stream (afterwards h r).store.stream)
          rwa [hkeeps]
  | store r =>
      cases queue with
      | cons job rest =>
          obtain ⟨hjob, hrest⟩ := List.forall_mem_cons.mp hq
          obtain ⟨hstep, hw', hr'⟩ := left_lands hjob hno hw hr
          rw [hstep] at hs
          obtain rfl := Option.some.inj hs
          exact ⟨.open_ hopen hcall hrest hw', hr'⟩
      | nil =>
          cases hcall with
          | none | running | returning => cases hs
          | waiting hp => exact answer_step hopen hp hw hr hs
  | cancel =>
      cases hcall with
      | none => cases hs
      | running | returning =>
          obtain rfl := Option.some.inj hs
          exact ⟨.open_ hopen .none hq hw, hr⟩
      | @waiting m op k hp =>
          obtain rfl := Option.some.inj hs
          -- the store has the operation and carries it out though no one waits for it
          refine ⟨.open_ hopen .none (fun job hjob => ?_) hw, hr⟩
          obtain hjob | hjob := List.mem_append.mp hjob
          · exact hq job hjob
          · obtain rfl := List.mem_singleton.mp hjob
            cases hp with
            | writes hreason hnone =>
                rw [hreason]
                exact .write hnone
            | closes hreason =>
                rw [hreason]
                exact .close
  | drop =>
      cases hcall with
      | none =>
          obtain rfl := Option.some.inj hs
          exact ⟨.dropping hopen hq hw, hr⟩
      | running | returning | waiting => cases hs
  | other op r =>
      obtain rfl := Option.some.inj hs
      have hgrows := r.on_grows op db
      exact ⟨.open_ hopen hcall hq hw, hr.trans (Database.stream_grows hgrows).sublist⟩

/-- The store takes the ending of a dropped handle, and there is one, or it was
lost. -/
theorem drop_lands {r : Result} {st' : State} (hopen : h.closed = false) (hw : NoEndings written)
    (hr : written.Sublist (db.stream h.store.stream))
    (hs : step ⟨db, { h with closed := true }, none, dropJob h, true, written, [], false⟩
      (.store r) = some st') : Phase st' ∧ Recorded st' := by
  have hjob : dropJob h = [⟨.detachAppend h.store.stream
      (closingEvent (some CLOSE_REASON_DROPPED) none []), some CLOSE_REASON_DROPPED, true⟩] :=
    if_neg (by rw [hopen]; exact nofun)
  rw [hjob] at hs
  obtain rfl := Option.some.inj hs
  obtain hdb | ⟨e, hdb, hends⟩ := dropped_on r db h.store.stream CLOSE_REASON_DROPPED
  · simp only [State.landing, hdb, added_self]
    refine ⟨?_, ?_⟩
    · have hlost : Phase ⟨db, { h with closed := true }, none, [], true, written, [], true⟩ :=
        .lost hw
      simpa using hlost
    · show (written ++ []).Sublist _
      rwa [List.append_nil]
  · simp only [State.landing, hdb, added_one]
    refine ⟨.gone ⟨written, e, _, rfl, hw, hends, rfl⟩, ?_⟩
    have hsub := sublist_landing hr (Or.inr ⟨e, rfl⟩)
    rwa [added_one] at hsub

/-- **One step**: a run goes on from phase to phase, and the handle's events stay
in the log in their order. -/
theorem Phase.step {a : Act} {st' : State} (hp : Phase st) (hr : Recorded st) (hno : ¬ Slip st a)
    (hs : step st a = some st') : Phase st' ∧ Recorded st' := by
  cases hp with
  | open_ hopen hcall hq hw => exact open_step hopen hcall hq hw hr hno hs
  | @closing db h m written reasons hopen hends =>
      cases a with
      | call | drop | store => cases hs
      | poll =>
          obtain rfl := Option.some.inj hs
          -- the close has been answered, and the handle hears of it
          exact ⟨.closed rfl (Or.inl rfl) hends, hr⟩
      -- dropped after the close landed: the handle does not know that it is closed
      | cancel => exact absurd ⟨m, _, rfl, rfl, hopen⟩ hno
      | other op r =>
          obtain rfl := Option.some.inj hs
          exact ⟨.closing hopen hends, hr.other (r.on_grows op db)⟩
  | @closed db h call written reasons hclosed hcall hends =>
      cases a with
      | call m =>
          obtain rfl | ⟨m', r, rfl, -⟩ := hcall
          · obtain rfl := Option.some.inj hs
            obtain ⟨r, hprogram, hkeeps⟩ := program_closed hclosed m
            refine ⟨.closed hclosed (Or.inr ⟨m, r, ?_, hkeeps⟩) hends, hr⟩
            rw [hprogram]
          · cases hs
      | poll =>
          obtain rfl | ⟨m', r, rfl, hkeeps⟩ := hcall
          · cases hs
          · obtain rfl := Option.some.inj hs
            have hphase : Phase ⟨db, afterwards h r, none, [], false, written, reasons, false⟩ := by
              rw [hkeeps]
              exact .closed hclosed (Or.inl rfl) hends
            refine ⟨hphase, ?_⟩
            show written.Sublist (db.stream (afterwards h r).store.stream)
            rw [hkeeps]
            exact hr
      | store r =>
          obtain rfl | ⟨m', r', rfl, -⟩ := hcall
          · cases hs
          · cases hs
      | cancel =>
          obtain rfl | ⟨m', r, rfl, -⟩ := hcall
          · cases hs
          · obtain rfl := Option.some.inj hs
            exact ⟨.closed hclosed (Or.inl rfl) hends, hr⟩
      | drop =>
          obtain rfl | ⟨m', r, rfl, -⟩ := hcall
          -- a closed handle has nothing left to record
          · have hjob : dropJob h = [] := if_pos hclosed
            have hst : some st' = some ⟨db, { h with closed := true }, none, [], true, written,
                reasons, false⟩ := by
              rw [← hs, Ending.step]
              simp [hjob]
            obtain rfl := Option.some.inj hst
            exact ⟨.gone hends, hr⟩
          · cases hs
      | other op r =>
          obtain rfl := Option.some.inj hs
          exact ⟨.closed hclosed hcall hends, hr.other (r.on_grows op db)⟩
  | @dropping db h front written hopen hq hw =>
      cases a with
      | call | poll | cancel | drop => cases hs
      | store r =>
          cases front with
          | cons job rest =>
              -- what was left behind lands before the ending of the drop
              obtain ⟨hjob, hrest⟩ := List.forall_mem_cons.mp hq
              obtain ⟨hstep, hw', hr'⟩ := left_lands hjob hno hw hr
              obtain rfl := Option.some.inj (hstep.symm.trans hs)
              exact ⟨.dropping hopen hrest hw', hr'⟩
          | nil => exact drop_lands hopen hw hr hs
      | other op r =>
          obtain rfl := Option.some.inj hs
          exact ⟨.dropping hopen hq hw, hr.other (r.on_grows op db)⟩
  | @gone db h written reasons hends =>
      cases a with
      | call | poll | cancel | drop | store => cases hs
      | other op r =>
          obtain rfl := Option.some.inj hs
          exact ⟨.gone hends, hr.other (r.on_grows op db)⟩
  | @lost db h written hw =>
      cases a with
      | call | poll | cancel | drop | store => cases hs
      | other op r =>
          obtain rfl := Option.some.inj hs
          exact ⟨.lost hw, hr.other (r.on_grows op db)⟩

end Steps

/-! ### One ending -/

/-- The endings among the events. -/
def endings (written : List Current) : List Current :=
  written.filter fun e => e.kind = KIND_SESSION_CLOSED

/-- What one ending means.  `owed` is how many there are once the handle is
dropped and nothing is left with the store. -/
structure OneEnding (st : State) (owed : Nat) : Prop where
  recorded : st.written.Sublist (st.db.stream st.handle.store.stream)
  atMostOne : (endings st.written).length ≤ 1
  atLast : ∀ front e rest, st.written = front ++ e :: rest → e.kind = KIND_SESSION_CLOSED →
    rest = []
  reason : (endings st.written).map (fun e => stringField e FIELD_REASON) =
    (st.reasons.take 1).map some
  drained : st.dropped = true → st.queue = [] → (endings st.written).length = owed

section Endings

variable {st : State} {written : List Current} {reasons : List String}

theorem NoEndings.endings (h : NoEndings written) : endings written = [] :=
  List.filter_eq_nil_iff.mpr fun e he => by simpa using h e he

theorem NoEndings.atLast (h : NoEndings written) (front : List Current) (e : Current)
    (rest : List Current) (hw : written = front ++ e :: rest) :
    e.kind ≠ KIND_SESSION_CLOSED :=
  h e (by rw [hw]; exact List.mem_append_right _ List.mem_cons_self)

theorem EndsWith.endings (h : EndsWith written reasons) :
    ∃ e reason, endings written = [e] ∧ stringField e FIELD_REASON = some reason ∧
      reasons = [reason] := by
  obtain ⟨front, e, reason, rfl, hfront, ⟨hkind, hreason⟩, rfl⟩ := h
  refine ⟨e, reason, ?_, hreason, rfl⟩
  show List.filter _ (front ++ [e]) = [e]
  rw [List.filter_append, ← Ending.endings, hfront.endings]
  simp [hkind]

theorem EndsWith.atLast (h : EndsWith written reasons) (front : List Current) (e : Current)
    (rest : List Current) (hw : written = front ++ e :: rest)
    (hkind : e.kind = KIND_SESSION_CLOSED) : rest = [] := by
  obtain ⟨front', e', reason, rfl, hfront, -, -⟩ := h
  cases List.eq_nil_or_concat rest with
  | inl hnil => exact hnil
  | inr hcons =>
      obtain ⟨rest', last, rfl⟩ := hcons
      -- the event stands before the last one, where there is no ending
      have hsplit : front' ++ [e'] = (front ++ e :: rest') ++ [last] := by
        rw [hw]
        simp
      obtain ⟨rfl, -⟩ := List.append_inj' hsplit rfl
      exact absurd hkind (hfront.atLast front e rest' rfl)

/-- Nothing has been recorded, and no ending is owed yet, or it was lost. -/
theorem OneEnding.none {owed : Nat} (hr : Recorded st) (hw : NoEndings st.written)
    (hreasons : st.reasons = []) (howed : st.dropped = true → st.queue = [] → owed = 0) :
    OneEnding st owed where
  recorded := hr
  atMostOne := by rw [hw.endings]; exact Nat.zero_le 1
  atLast front e rest heq hkind := absurd hkind (hw.atLast front e rest heq)
  reason := by rw [hw.endings, hreasons]; rfl
  drained hd hq := by rw [hw.endings, howed hd hq]; rfl

/-- The one ending has been recorded. -/
theorem OneEnding.one (hr : Recorded st) (hw : EndsWith st.written st.reasons) :
    OneEnding st 1 := by
  obtain ⟨e, reason, hendings, hreason, hreasons⟩ := hw.endings
  refine ⟨hr, ?_, hw.atLast, ?_, fun _ _ => ?_⟩
  · rw [hendings]
    exact Nat.le_refl 1
  · rw [hendings, hreasons]
    show [stringField e FIELD_REASON] = [some reason]
    rw [hreason]
  · rw [hendings]
    rfl

theorem Phase.oneEnding (hp : Phase st) (hr : Recorded st) :
    OneEnding st (if st.lost then 0 else 1) := by
  cases hp with
  | open_ hopen hcall hq hw => exact .none hr hw rfl nofun
  | closing hopen hends => exact .one hr hends
  | closed hclosed hcall hends => exact .one hr hends
  | @dropping db h front written hopen hq hw =>
      refine .none hr hw rfl fun _ hnil => ?_
      have hjob : dropJob h = [] := (List.append_eq_nil_iff.mp hnil).2
      rw [dropJob, if_neg (by rw [hopen]; exact nofun)] at hjob
      cases hjob
  | gone hends => exact .one hr hends
  | lost hw => exact .none hr hw rfl fun _ _ => rfl

end Endings

/-- Where a run of an open handle is. -/
theorem phase_of_run {db : Database} {h : Session} (hopen : h.closed = false) {st : State}
    (hrun : Steps.Run step (fun st a => ¬ Slip st a) { db := db, handle := h } st) :
    Phase st ∧ Recorded st := by
  have hinit : Phase { db := db, handle := h } ∧ Recorded { db := db, handle := h } := by
    refine ⟨.open_ hopen .none ?_ ?_, List.nil_sublist _⟩
    · intro job hjob
      cases hjob
    · intro e he
      cases he
  exact Steps.Run.inv (I := fun st => Phase st ∧ Recorded st) hinit
    (fun _ _ _ ⟨hp, hr⟩ hno hs => hp.step hr hno hs) hrun

/-- **One ending**: on every run of an open handle that records no close that was
cancelled, the stream ends with at most one ending, under the first reason that was
given, and with just one once the handle is dropped and the store is done, unless
the write of the drop was lost.  A cancelled close is left out because the handle
stays open while its write may still land, and the drop then writes another. -/
theorem one_ending {db : Database} {h : Session} (hopen : h.closed = false) {st : State}
    (hrun : Steps.Run step (fun st a => ¬ Slip st a) { db := db, handle := h } st) :
    OneEnding st (if st.lost then 0 else 1) := by
  obtain ⟨hp, hr⟩ := phase_of_run hopen hrun
  exact hp.oneEnding hr

/-! ### On a run -/

/-- A handle that was just handed out on a stream. -/
def handle : Session := ⟨"h", ⟨"scope", "u", none⟩, ⟨none, "s"⟩, (0, none), false⟩

def fresh : State := { db := [], handle := handle }

/-- An event, a close, and the drop, each answered. -/
def answered : List Act :=
  [.call (.append [("kind", .str "note")]), .poll, .store (.done still), .poll,
    .call (.close none none), .poll, .store (.done still), .poll, .drop]

theorem one_ending_answered :
    ∃ st, Steps.after step fresh answered = some st ∧ OneEnding st (if st.lost then 0 else 1) := by
  have htaken : Steps.Taken step (fun st a => ¬ Slip st a) fresh answered :=
    ⟨id, id, not_slip_store rfl _, id, id, id, not_slip_store rfl _, id, id, trivial⟩
  exact ⟨_, rfl, one_ending rfl (Steps.Run.init.follow htaken rfl)⟩

/-- A close is cancelled while it waits and is recorded all the same, and the
drop records another. -/
def abandoned : List Act :=
  [.call (.close none none), .poll, .cancel, .store (.done still), .drop, .store (.done still)]

/-- The write of the drop fails. -/
def unwritten : List Act := [.drop, .store (.failed (.storage "disk"))]

/-- **Two endings, and none.** -/
theorem two_endings :
    (∃ st, Steps.after step fresh abandoned = some st ∧
      (endings st.written).map (fun e => stringField e FIELD_REASON) =
        [some "closed", some "dropped"] ∧ ¬ OneEnding st 1) ∧
    ∃ st, Steps.after step fresh unwritten = some st ∧ st.dropped = true ∧ st.queue = [] ∧
      endings st.written = [] ∧ ¬ OneEnding st 1 := by
  refine ⟨⟨_, rfl, by decide, fun h => ?_⟩, _, rfl, rfl, rfl, rfl, fun h => ?_⟩
  · exact absurd h.atMostOne (by decide)
  · cases h.drained rfl rfl

end AgentBlock.Knl.Ending
