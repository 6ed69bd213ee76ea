/-
AgentBlock/Knl/Bracket.lean

The bracket around a session: `knl.session` opens or resumes a handle, calls a
body with it, closes the handle by how the body ended, and lets that ending out.

The body may do with the handle whatever a handle can be put through, so the
bracket starts where any run of it is.  What the body raised becomes the close's
detail by one route here, through `tostring` and the conversion of an argument,
and by another in the `<close>` form, which reads the value without calling Lua.

Main results:

* `close_answered` — what a close of an open handle comes to, whatever happens
  while it waits;
* `ending_told` — the ending that is recorded, and what comes out;
* `endings_untold` — four bodies whose ending is recorded otherwise.
-/
import AgentBlock.Knl.Ending
import AgentBlock.Lib.Utf8

namespace AgentBlock.Knl.Ending

open Interleaving Utf8

variable {β : Type}

/-! ### What a body raised -/

/-- A raised value, by the type Lua and the bridge tell apart.  A number comes
with its text in Lua and its text in Rust, and a value of any other type with the
text that `tostring` makes of it. -/
inductive Raised where
  | nil
  | string (bytes : Bytes)
  | integer (i : Int)
  | number (lua rust : String)
  | error (text : String)
  | other (typeName : String) (text : Bytes)

/-- A Lua string as an argument: only a UTF-8 text is one. -/
def asText (bytes : Bytes) : Option String := String.fromUTF8? bytes.toByteArray

/-- `tostring` of the value, where it is accepted as a detail. -/
def Raised.text : Raised → Option String
  | .nil => some "nil"
  | .string bytes => asText bytes
  | .integer i => some (toString i)
  | .number lua _ => some lua
  | .error text => some text
  | .other _ bytes => asText bytes

/-- What the `<close>` form takes the value for.  It is called with nil both on
a clean exit and where nil was raised. -/
def Raised.errorDetail (toStringLossy : Bytes → String) : Raised → Option String
  | .nil => none
  | .string bytes => some ((asText bytes).getD (toStringLossy bytes))
  | .integer i => some (toString i)
  | .number _ rust => some rust
  | .error text => some text
  | .other typeName _ => some ("<" ++ typeName ++ ">")

/-- The values that both forms read as one text. -/
def Raised.Alike : Raised → Prop
  | .string bytes => (asText bytes).isSome
  | .integer _ | .error _ => True
  | .number lua rust => lua = rust
  | .nil | .other .. => False

theorem Raised.Alike.errorDetail {v : Raised} (h : v.Alike) (toStringLossy : Bytes → String) :
    v.errorDetail toStringLossy = v.text ∧ v.text.isSome := by
  cases v with
  | nil => exact h.elim
  | other => exact h.elim
  | integer i => exact ⟨rfl, rfl⟩
  | error text => exact ⟨rfl, rfl⟩
  | number lua rust =>
      obtain rfl : lua = rust := h
      exact ⟨rfl, rfl⟩
  | string bytes =>
      obtain ⟨text, htext⟩ := Option.isSome_iff_exists.mp h
      refine ⟨?_, h⟩
      show some ((asText bytes).getD _) = asText bytes
      rw [htext]
      rfl

/-! ### The bracket -/

/-- How a body ended. -/
inductive Outcome (β : Type) where
  | returned (values : List β)
  | raised (v : Raised)

/-- How the bracket ends. -/
inductive Exit (β : Type) where
  | values (values : List β)
  | raised (v : Raised)
  | closeFailed (e : KnlError)

/-- The close that the bracket makes.  There is none where the detail is refused,
for that is before the session is reached. -/
def Outcome.close : Outcome β → Option Method
  | .returned _ => some (.close (some CLOSE_REASON_SCOPE_EXIT) none)
  | .raised v => v.text.map fun text => .close (some CLOSE_REASON_ERROR) (some text)

/-- What comes out when the close answered. -/
def Outcome.exit : Outcome β → Except KnlError Answer → Exit β
  | .returned values, .ok _ => .values values
  | .returned _, .error e => .closeFailed e
  | .raised v, _ => .raised v

/-- A close that failed behind the body's error, which the log is warned about. -/
inductive Suppressed where
  | ofStore (e : KnlError)
  | ofDetail

def Outcome.warned : Outcome β → Except KnlError Answer → Option Suppressed
  | .raised _, .error e => some (.ofStore e)
  | _, _ => none

/-- What happens while a call waits.  It holds the handle's lock, so no other
call begins. -/
def Act.Waits : Act → Prop
  | .poll | .store _ | .other .. => True
  | .call _ | .cancel | .drop => False

def Meanwhile (st : State) (a : Act) : Prop := a.Waits ∧ ¬ Slip st a

/-- What the bracket does when its body has ended in `st`: the steps that are
taken while it closes, what comes out, what is warned about, and the state then. -/
inductive Bracket (st : State) : Outcome β → List Act → Exit β → Option Suppressed → State → Prop
  | answered {outcome : Outcome β} {m : Method} {acts : List Act} {r : Except KnlError Answer}
      {called returning st' : State} : outcome.close = some m → step st (.call m) = some called →
      Steps.Taken step Meanwhile called acts → Steps.after step called acts = some returning →
      returning.call = some (.running m (.ret r)) → step returning .poll = some st' →
      Bracket st outcome acts (outcome.exit r) (outcome.warned r) st'
  | refused {v : Raised} : v.text = none → st.call = none → st.dropped = false →
      Bracket st (.raised v) [] (.raised v) (some .ofDetail) st

/-! ### A close, answered -/

section Closes

variable {m : Method} {h : Session} {st : State} {acts : List Act}

theorem closing_detail (clock : Nat → Nat) (db : Database) (s : String)
    (reason detail : Option String) (children : List String) :
    stringField (landed clock db s (closingEvent reason detail children)) FIELD_DETAIL =
      detail := by
  cases detail <;> cases children <;> simp [stringField, dataField, closingEvent]

/-- No call comes up while none is in flight. -/
theorem idle_rest {ret : State} (hcall : st.call = none)
    (htaken : Steps.Taken step Meanwhile st acts) (hafter : Steps.after step st acts = some ret) :
    ret.call = none := by
  induction acts generalizing st with
  | nil =>
      obtain rfl := Option.some.inj hafter
      exact hcall
  | cons a acts ih =>
      obtain ⟨s', hs, hrest⟩ := Option.bind_eq_some_iff.mp hafter
      obtain ⟨⟨hwaits, -⟩, htail⟩ := htaken
      rw [hs] at htail
      refine ih ?_ htail hrest
      cases a with
      | call | cancel | drop => exact hwaits.elim
      | poll =>
          rw [Ending.step, hcall] at hs
          cases hs
      | other op r =>
          obtain rfl := Option.some.inj hs
          exact hcall
      | store r =>
          rw [Ending.step] at hs
          split at hs
          · obtain rfl := Option.some.inj hs
            exact hcall
          · rw [hcall] at hs
            cases hs

/-- An answered call stays as it is until it returns. -/
theorem answered_rest {db : Database} {p q : Except KnlError Answer} {written : List Current}
    {reasons : List String} {ret : State}
    (htaken : Steps.Taken step Meanwhile
      ⟨db, h, some (.running m (.ret p)), [], false, written, reasons, false⟩ acts)
    (hafter : Steps.after step
      ⟨db, h, some (.running m (.ret p)), [], false, written, reasons, false⟩ acts = some ret)
    (hret : ret.call = some (.running m (.ret q))) :
    q = p ∧ ∃ db', ret =
      ⟨db', h, some (.running m (.ret p)), [], false, written, reasons, false⟩ := by
  induction acts generalizing db with
  | nil =>
      obtain rfl := Option.some.inj hafter
      cases hret
      exact ⟨rfl, db, rfl⟩
  | cons a acts ih =>
      obtain ⟨s', hs, hrest⟩ := Option.bind_eq_some_iff.mp hafter
      obtain ⟨⟨hwaits, -⟩, htail⟩ := htaken
      rw [hs] at htail
      cases a with
      | call | cancel | drop => exact hwaits.elim
      | store r => cases hs
      | poll =>
          obtain rfl := Option.some.inj hs
          rw [idle_rest rfl htail hrest] at hret
          cases hret
      | other op r =>
          obtain rfl := Option.some.inj hs
          exact ih htail hrest

/-- What a close with this reason and detail came to: the store failed, or the
ending is the last event of the handle. -/
def Came (h : Session) (m : Method) (reason : String) (detail : Option String) (acts : List Act)
    (r : Except KnlError Answer) (ret : State) : Prop :=
  (∃ e db written, Act.store (.failed e) ∈ acts ∧ r = .error e ∧ NoEndings written ∧
    ret = ⟨db, h, some (.running m (.ret r)), [], false, written, [], false⟩) ∨
  ∃ ev db front, r = .ok (.session { h with closed := true }) ∧ NoEndings front ∧
    Ends ev reason ∧ stringField ev FIELD_DETAIL = detail ∧
    ret = ⟨db, h, some (.running m (.ret r)), [], false, front ++ [ev], [reason], false⟩

theorem Came.cons {reason : String} {detail : Option String} {r : Except KnlError Answer}
    {ret : State} (a : Act) (hc : Came h m reason detail acts r ret) :
    Came h m reason detail (a :: acts) r ret := by
  refine hc.imp ?_ id
  rintro ⟨e, db, written, hmem, hrest⟩
  exact ⟨e, db, written, List.mem_cons_of_mem _ hmem, hrest⟩

section Waiting

variable {db : Database} {written : List Current} {reason : String} {detail : Option String}
variable {r : Except KnlError Answer} {ret : State}

/-- The write of a close of the handle. -/
def closeOp (h : Session) (reason : String) (detail : Option String) : StoreOp :=
  .appendWithOpenChildren h.store.stream childScan (closingEvent (some reason) detail)

/-- What a close makes of the store's answer. -/
def closeReply (h : Session) (reason : String) (detail : Option String) :
    (closeOp h reason detail).Ans → Prog StoreOp StoreOp.Ans (Except KnlError Answer) :=
  onReply fun _ => .ret (.ok (.session { h with closed := true }))

/-- The store does what the close waits for, or fails. -/
theorem waiting_answered {res : Result} {s' : State} (hm : m.reason = some reason)
    (hw : NoEndings written)
    (hs : step ⟨db, h, some (.waiting m (closeOp h reason detail) (closeReply h reason detail)), [],
      false, written, [], false⟩ (.store res) = some s')
    (htaken : Steps.Taken step Meanwhile s' acts) (hafter : Steps.after step s' acts = some ret)
    (hret : ret.call = some (.running m (.ret r))) :
    Came h m reason detail (.store res :: acts) r ret := by
  have hs' : some s' = some ({ (⟨db, h, some (.waiting m (closeOp h reason detail)
      (closeReply h reason detail)), [], false, written, [], false⟩ : State).landing
        (res.on (closeOp h reason detail) db).2 m.reason with
      call := some (.running m
        (closeReply h reason detail (res.on (closeOp h reason detail) db).1)) } : State) := hs.symm
  obtain rfl := Option.some.inj hs'
  cases res with
  | failed e =>
      have hstate : ({ (⟨db, h, some (.waiting m (closeOp h reason detail)
            (closeReply h reason detail)), [], false, written, [], false⟩ : State).landing
            db m.reason with call := some (.running m (.ret (.error e))) } : State) =
          ⟨db, h, some (.running m (.ret (.error e))), [], false, written, [], false⟩ := by
        simp [State.landing]
      obtain ⟨rfl, db', hdb'⟩ := answered_rest (hstate ▸ htaken) (hstate ▸ hafter) hret
      exact Or.inl ⟨e, db', written, List.mem_cons_self, rfl, hw, hdb'⟩
  | done clock =>
      let ev := landed clock db h.store.stream (closingEvent (some reason) detail
        (openChildrenIn db h.store.stream childScan))
      have hon : (Result.done clock).on (closeOp h reason detail) db =
          (.ok (lastCommitted (db ++ [⟨h.store.stream, ev⟩]) h.store.stream),
            db ++ [⟨h.store.stream, ev⟩]) :=
        exec_close clock db h.store.stream (some reason) detail
      rw [hon] at htaken hafter
      have hstate : ({ (⟨db, h, some (.waiting m (closeOp h reason detail)
            (closeReply h reason detail)), [], false, written, [], false⟩ : State).landing
            (db ++ [⟨h.store.stream, ev⟩]) m.reason with
          call := some (.running m (.ret (.ok (.session { h with closed := true })))) } : State) =
          ⟨db ++ [⟨h.store.stream, ev⟩], h,
            some (.running m (.ret (.ok (.session { h with closed := true })))), [], false,
            written ++ [ev], [reason], false⟩ := by
        simp [State.landing, hm]
      obtain ⟨rfl, db', hdb'⟩ := answered_rest (hstate ▸ htaken) (hstate ▸ hafter) hret
      exact Or.inr ⟨ev, db', written, rfl, hw, ends_closing clock db _ (some reason) detail _,
        closing_detail .., hdb'⟩

/-- **What a close comes to**, while it waits or is about to.  What was left
behind lands before its write, and none of that is an ending. -/
theorem close_answered {queue : List Job} {call : InFlight} (hm : m.reason = some reason)
    (hcall : call = .running m (.op (closeOp h reason detail) (closeReply h reason detail)) ∨
      call = .waiting m (closeOp h reason detail) (closeReply h reason detail))
    (hq : ∀ job ∈ queue, LeftBehind h.store.stream job) (hw : NoEndings written)
    (hr : written.Sublist (db.stream h.store.stream))
    (htaken : Steps.Taken step Meanwhile ⟨db, h, some call, queue, false, written, [], false⟩ acts)
    (hafter : Steps.after step ⟨db, h, some call, queue, false, written, [], false⟩ acts = some ret)
    (hret : ret.call = some (.running m (.ret r))) :
    Came h m reason detail acts r ret := by
  induction acts generalizing db queue written call with
  | nil =>
      obtain rfl := Option.some.inj hafter
      obtain rfl | rfl := hcall
      · cases hret
      · cases hret
  | cons a acts ih =>
      obtain ⟨s', hs, hrest⟩ := Option.bind_eq_some_iff.mp hafter
      obtain ⟨⟨hwaits, hno⟩, htail⟩ := htaken
      rw [hs] at htail
      cases a with
      | call | cancel | drop => exact hwaits.elim
      | poll =>
          obtain rfl | rfl := hcall
          · obtain rfl := Option.some.inj hs
            exact (ih (Or.inr rfl) hq hw hr htail hrest).cons _
          · cases hs
      | other op res =>
          obtain rfl := Option.some.inj hs
          have hgrows : (db.stream h.store.stream).Sublist
              ((res.on op db).2.stream h.store.stream) :=
            (Database.stream_grows (res.on_grows op db)).sublist
          exact (ih hcall hq hw (hr.trans hgrows) htail hrest).cons _
      | store res =>
          cases queue with
          | cons job rest =>
              -- what was left behind goes first
              obtain ⟨hjob, hjobs⟩ := List.forall_mem_cons.mp hq
              obtain ⟨hstep, hw', hr'⟩ := left_lands hjob hno hw hr
              obtain rfl := Option.some.inj (hstep.symm.trans hs)
              exact (ih hcall hjobs hw' hr' htail hrest).cons _
          | nil =>
              obtain rfl | rfl := hcall
              · cases hs
              · exact waiting_answered hm hw hs htail hrest hret

end Waiting

end Closes

/-! ### The ending that is told -/

/-- Two methods that hand the store one write. -/
def SameWrite (p q : Prog StoreOp StoreOp.Ans (Except KnlError Answer)) : Prop :=
  ∃ op k k', p = .op op k ∧ q = .op op k'

/-- What is told of a body that returned: its values, with an ending that is the
body's own where it closed the handle, or the failure of the close. -/
def ReturnTold (st : State) (values : List β) (acts : List Act) (exit : Exit β)
    (st' : State) : Prop :=
  (exit = .values values ∧ EndsWith st'.written st'.reasons ∧
    st'.reasons = if st.handle.closed then st.reasons else [CLOSE_REASON_SCOPE_EXIT]) ∨
  ∃ e, Act.store (.failed e) ∈ acts ∧ exit = .closeFailed e ∧ NoEndings st'.written

/-- What is told of a body that raised: the value, with an ending that has its
text, unless the body closed the handle or the store refused the write. -/
structure RaiseTold (toStringLossy : Bytes → String) (st : State) (v : Raised) (acts : List Act)
    (exit : Exit β) (warned : Option Suppressed) (st' : State) : Prop where
  propagates : exit = .raised v
  closedByBody : st.handle.closed = true →
    EndsWith st'.written st'.reasons ∧ st'.reasons = st.reasons
  recorded : st.handle.closed = false → ∀ text, v.text = some text →
    (∃ e, Act.store (.failed e) ∈ acts ∧ warned = some (.ofStore e) ∧ NoEndings st'.written) ∨
    ∃ front ev, st'.written = front ++ [ev] ∧ NoEndings front ∧ Ends ev CLOSE_REASON_ERROR ∧
      stringField ev FIELD_DETAIL = some (truncated text) ∧ warned = none
  asTheScope : v.Alike → ∀ h : Session, h.closed = false → ∃ m,
    (Outcome.raised v : Outcome β).close = some m ∧
      SameWrite (m.program h) ((Method.scopeEnd (v.errorDetail toStringLossy)).program h)

/-- What is told of an outcome. -/
def Told (toStringLossy : Bytes → String) (st : State) (outcome : Outcome β) (acts : List Act)
    (exit : Exit β) (warned : Option Suppressed) (st' : State) : Prop :=
  match outcome with
  | .returned values => ReturnTold st values acts exit st'
  | .raised v => RaiseTold toStringLossy st v acts exit warned st'

section Told

variable {h : Session} {st st' : State} {acts : List Act}

theorem program_close (hopen : h.closed = false) (reason : String) (detail : Option String) :
    (Method.close (some reason) detail).program h =
      .op (closeOp h reason (detail.map truncated))
        (closeReply h reason (detail.map truncated)) := by
  show body (.closeWith h (some reason) (detail.map truncated)) = _
  rw [body_closeWith, hopen]
  rfl

/-- The `<close>` form on an open handle, with an error. -/
theorem program_scopeEnd (hopen : h.closed = false) (text : String) :
    ∃ k, (Method.scopeEnd (some text)).program h =
      .op (closeOp h CLOSE_REASON_ERROR (some (truncated text))) k := by
  refine ⟨fun
    | .ok _ => .ret (.ok (.session { h with closed := true }))
    | .error _ => .ret (.ok (.session h)), ?_⟩
  show (Answer.session <$> Ending.scopeEnd h (some text)).run = _
  rw [Ending.scopeEnd, if_neg (by rw [hopen]; exact Bool.false_ne_true)]
  simp only [Session.closeWith, hopen]
  refine op_congr _ fun a => ?_
  cases a <;> rfl

/-- A value that both forms read alike is the same write in both. -/
theorem Raised.Alike.sameWrite {v : Raised} (hv : v.Alike) (toStringLossy : Bytes → String)
    (hopen : h.closed = false) :
    ∃ m, (Outcome.raised v : Outcome β).close = some m ∧
      SameWrite (m.program h) ((Method.scopeEnd (v.errorDetail toStringLossy)).program h) := by
  obtain ⟨hdetail, hsome⟩ := hv.errorDetail toStringLossy
  obtain ⟨text, htext⟩ := Option.isSome_iff_exists.mp hsome
  refine ⟨.close (some CLOSE_REASON_ERROR) (some text), by simp [Outcome.close, htext], ?_⟩
  obtain ⟨k, hk⟩ := program_scopeEnd hopen text
  rw [hdetail, htext, hk, program_close hopen]
  exact ⟨_, _, _, rfl, rfl⟩

/-- What the bracket's close of a handle came to, and the state it leaves. -/
theorem close_came {m : Method} {reason : String} {detail : Option String} {db : Database}
    {queue : List Job} {written : List Current} {r : Except KnlError Answer}
    {called returning : State} (hopen : h.closed = false)
    (hm : m = .close (some reason) detail) (hq : ∀ job ∈ queue, LeftBehind h.store.stream job)
    (hw : NoEndings written) (hr : written.Sublist (db.stream h.store.stream))
    (hcalled : step ⟨db, h, none, queue, false, written, [], false⟩ (.call m) = some called)
    (htaken : Steps.Taken step Meanwhile called acts)
    (hafter : Steps.after step called acts = some returning)
    (hret : returning.call = some (.running m (.ret r)))
    (hpoll : step returning .poll = some st') :
    (∃ e, Act.store (.failed e) ∈ acts ∧ r = .error e ∧ NoEndings st'.written) ∨
    ∃ ev front c, r = .ok c ∧ st'.written = front ++ [ev] ∧ st'.reasons = [reason] ∧
      NoEndings front ∧ Ends ev reason ∧ stringField ev FIELD_DETAIL = detail.map truncated := by
  subst hm
  obtain rfl := Option.some.inj hcalled
  rw [program_close hopen] at htaken hafter
  obtain ⟨e, db', written', hmem, rfl, hno, rfl⟩ | ⟨ev, db', front, rfl, hno, hends, hdet, rfl⟩ :=
    close_answered rfl (Or.inl rfl) hq hw hr htaken hafter hret
  · obtain rfl := Option.some.inj hpoll
    exact Or.inl ⟨e, hmem, rfl, hno⟩
  · obtain rfl := Option.some.inj hpoll
    exact Or.inr ⟨ev, front, _, rfl, rfl, rfl, hno, hends, hdet⟩

/-- A handle that the body closed is left as it is, and the close answers. -/
theorem close_again {m : Method} {reason : String} {detail : Option String} {db : Database}
    {written : List Current} {reasons : List String} {r : Except KnlError Answer}
    {called returning : State} (hclosed : h.closed = true) (hm : m = .close (some reason) detail)
    (hcalled : step ⟨db, h, none, [], false, written, reasons, false⟩ (.call m) = some called)
    (htaken : Steps.Taken step Meanwhile called acts)
    (hafter : Steps.after step called acts = some returning)
    (hret : returning.call = some (.running m (.ret r)))
    (hpoll : step returning .poll = some st') :
    (∃ c, r = .ok c) ∧ st'.written = written ∧ st'.reasons = reasons := by
  subst hm
  obtain rfl := Option.some.inj hcalled
  have hprogram : (Method.close (some reason) detail).program h = .ret (.ok (.session h)) := by
    show body (.closeWith h (some reason) (detail.map truncated)) = _
    rw [body_closeWith, hclosed]
    rfl
  rw [hprogram] at htaken hafter
  obtain ⟨rfl, db', rfl⟩ := answered_rest htaken hafter hret
  obtain rfl := Option.some.inj hpoll
  exact ⟨⟨_, rfl⟩, rfl, rfl⟩

/-- The bracket closes a handle that no call holds and that nothing dropped. -/
theorem call_inv {m : Method} {called : State} (h : step st (.call m) = some called) :
    st.call = none ∧ st.dropped = false := by
  rw [Ending.step] at h
  split at h
  · next hfree => simpa using hfree
  · cases h

end Told

/-- **The bracket, after any run of the body** in which no close that was
cancelled is recorded: whatever the store answers to the close, the caller hears what
came of the body, and an ending on the record is of the body's own close, or of the
outcome that was heard. -/
theorem ending_told (toStringLossy : Bytes → String) {db : Database} {h : Session}
    (hopen : h.closed = false) {st : State}
    (hbody : Steps.Run step (fun st a => ¬ Slip st a) { db := db, handle := h } st)
    {outcome : Outcome β} {acts : List Act} {exit : Exit β} {warned : Option Suppressed}
    {st' : State} (hb : Bracket st outcome acts exit warned st') :
    Recorded st' ∧ Told toStringLossy st outcome acts exit warned st' := by
  obtain ⟨hp, hr⟩ := phase_of_run hopen hbody
  cases hb with
  | @refused v htext hcall hdropped =>
      refine ⟨hr, rfl, fun hclosed => ?_, fun _ text h => ?_, fun hv h _ => ?_⟩
      · cases hp with
        -- no close was tried, so what is on the record is the body's own
        | closed _ _ hends => exact ⟨hends, rfl⟩
        | open_ hopen | closing hopen => exact absurd (hopen.symm.trans hclosed) nofun
        | dropping | gone | lost => cases hdropped
      · rw [htext] at h
        cases h
      · exact absurd (htext ▸ (hv.errorDetail toStringLossy).2) nofun
  | @answered outcome m acts r called returning st' hclose hcalled htaken hafter hret hpoll =>
      have hafterward := (hbody.step id hcalled).follow (htaken.mono fun _ _ hw => hw.2) hafter
      have hrun := hafterward.step id hpoll
      refine ⟨(phase_of_run hopen hrun).2, ?_⟩
      obtain ⟨hcall, hdropped⟩ := call_inv hcalled
      cases hp with
      | closing => cases hcall
      | dropping | gone | lost => cases hdropped
      | @open_ db h _ queue written hopen _ hq hw =>
          obtain rfl : _ = none := hcall
          cases outcome with
          | returned values =>
              obtain rfl := Option.some.inj hclose
              obtain ⟨e, hmem, rfl, hno⟩ | ⟨ev, front, c, rfl, hwritten, hreasons, hno, hends, -⟩ :=
                close_came hopen rfl hq hw hr hcalled htaken hafter hret hpoll
              · exact Or.inr ⟨e, hmem, rfl, hno⟩
              · refine Or.inl ⟨rfl, ?_, ?_⟩
                · exact ⟨front, ev, _, hwritten, hno, hends, hreasons⟩
                · rw [hreasons]
                  exact (if_neg (by rw [hopen]; exact nofun)).symm
          | raised v =>
              obtain ⟨text, htext, rfl⟩ := Option.map_eq_some_iff.mp hclose
              refine ⟨rfl, fun hclosed => absurd (hopen.symm.trans hclosed) nofun,
                fun _ text' htext' => ?_, fun hv h hopen => hv.sameWrite toStringLossy hopen⟩
              obtain rfl := Option.some.inj (htext.symm.trans htext')
              obtain ⟨e, hmem, rfl, hno⟩ | ⟨ev, front, c, rfl, hwritten, -, hno, hends, hdet⟩ :=
                close_came hopen rfl hq hw hr hcalled htaken hafter hret hpoll
              · exact Or.inl ⟨e, hmem, rfl, hno⟩
              · exact Or.inr ⟨front, ev, hwritten, hno, hends, hdet, rfl⟩
      -- the body has closed the handle: this close writes nothing
      | @closed db h _ written reasons hclosed _ hends =>
          obtain rfl : _ = none := hcall
          cases outcome with
          | returned values =>
              obtain rfl := Option.some.inj hclose
              obtain ⟨⟨c, rfl⟩, hwritten, hreasons⟩ :=
                close_again hclosed rfl hcalled htaken hafter hret hpoll
              refine Or.inl ⟨rfl, ?_, ?_⟩
              · rw [hwritten, hreasons]
                exact hends
              · rw [hreasons]
                exact (if_pos hclosed).symm
          | raised v =>
              obtain ⟨text, htext, rfl⟩ := Option.map_eq_some_iff.mp hclose
              obtain ⟨⟨c, rfl⟩, hwritten, hreasons⟩ :=
                close_again hclosed rfl hcalled htaken hafter hret hpoll
              refine ⟨rfl, fun _ => ⟨?_, hreasons⟩,
                fun hopen => absurd (hopen.symm.trans hclosed) nofun,
                fun hv h hopen => hv.sameWrite toStringLossy hopen⟩
              rw [hwritten, hreasons]
              exact hends

/-! ### On a run -/

/-- The body appends an event. -/
def noted : List Act :=
  [.call (.append [("kind", .str "note")]), .poll, .store (.done still), .poll]

/-- The store does what the close waits for. -/
def settled : List Act := [.poll, .store (.done still)]

/-- What a close of the handle answers. -/
def closed : Except KnlError Answer := .ok (.session { handle with closed := true })

def boom : Raised := .string [98, 111, 111, 109]

/-- A close that was answered, by what it answered. -/
theorem Bracket.of_answer {st called returning st' : State} {outcome : Outcome β} {m : Method}
    {acts : List Act} (r : Except KnlError Answer) {exit : Exit β} {warned : Option Suppressed}
    (hclose : outcome.close = some m) (hcalled : step st (.call m) = some called)
    (htaken : Steps.Taken step Meanwhile called acts)
    (hafter : Steps.after step called acts = some returning)
    (hret : returning.call = some (.running m (.ret r)))
    (hpoll : step returning .poll = some st') (hexit : outcome.exit r = exit)
    (hwarned : outcome.warned r = warned) : Bracket st outcome acts exit warned st' := by
  subst hexit hwarned
  exact .answered hclose hcalled htaken hafter hret hpoll

theorem ending_told_boom :
    ∃ st st', Steps.after step fresh noted = some st ∧
      Bracket st (.raised boom : Outcome String) settled (.raised boom) none st' ∧
      Recorded st' ∧ Told (fun _ => "?") st (.raised boom : Outcome String) settled
        (.raised boom) none st' := by
  obtain ⟨st, hst⟩ : ∃ st, Steps.after step fresh noted = some st := ⟨_, rfl⟩
  have htaken : Steps.Taken step (fun st a => ¬ Slip st a) fresh noted :=
    ⟨id, id, not_slip_store rfl _, id, trivial⟩
  obtain ⟨st', hb⟩ : ∃ st', Bracket st (.raised boom : Outcome String) settled
      (.raised boom) none st' := by
    obtain rfl := Option.some.inj hst
    exact ⟨_, .of_answer closed rfl rfl
      ⟨⟨trivial, id⟩, ⟨trivial, not_slip_store rfl _⟩, trivial⟩ rfl rfl rfl rfl rfl⟩
  exact ⟨st, st', hst, hb, ending_told _ rfl (Steps.Run.init.follow htaken hst) hb⟩

/-- The reasons and the details of the endings. -/
def told (st : State) : List (Option String × Option String) :=
  (endings st.written).map fun e => (stringField e FIELD_REASON, stringField e FIELD_DETAIL)

/-- A close of the body, answered. -/
def closedFirst : List Act :=
  [.call (.close none none), .poll, .store (.done still), .poll]

/-- A close of the body that is cancelled and recorded all the same. -/
def closeAbandoned : List Act :=
  [.call (.close none none), .poll, .cancel, .store (.done still)]

/-- A raised table. -/
def tabled : Raised := .other "table" [116]

/-- The `<close>` form of a raised value, answered. -/
def scopeClosed (v : Raised) : List Act :=
  [.call (.scopeEnd (v.errorDetail fun _ => "?")), .poll, .store (.done still), .poll]

/-- The state that the steps of a body lead to. -/
def afterBody (acts : List Act) : State := (Steps.after step fresh acts).getD fresh

/-- The state after a close with this reason and detail. -/
def closedBy (st : State) (reason : String) (detail : Option String) (acts : List Act) : State :=
  (Steps.after step st (.call (.close (some reason) detail) :: acts ++ [.poll])).getD st

/-- **Endings that are recorded otherwise**: the body closed the session before
it raised; what it raised is a table, whose text only the bracket records; a close
of the body was cancelled; and the text that was raised is no UTF-8. -/
theorem endings_untold :
    (∃ st', Bracket (afterBody closedFirst) (.raised boom : Outcome String) []
        (.raised boom) none st' ∧
      told st' = [(some "closed", none)]) ∧
    ((∃ st', Bracket fresh (.raised tabled : Outcome String) settled (.raised tabled) none st' ∧
        told st' = [(some "error", some "t")]) ∧
      (Steps.after step fresh (scopeClosed tabled)).map told =
        some [(some "error", some "<table>")]) ∧
    (∃ st', Bracket (afterBody closeAbandoned) (.returned ["v"]) settled (.values ["v"]) none st' ∧
      told st' = [(some "closed", none), (some "scope_exit", none)]) ∧
    Bracket fresh (.raised (.string [255]) : Outcome String) [] (.raised (.string [255]))
        (some .ofDetail) fresh ∧ told fresh = [] := by
  have hsettles : ∀ {st called next : State}, step st .poll = some called → called.queue = [] →
      step called (.store (.done still)) = some next → Steps.Taken step Meanwhile st settled := by
    intro st called next hs hq hn
    refine ⟨⟨trivial, id⟩, ?_⟩
    rw [hs]
    refine ⟨⟨trivial, not_slip_store hq _⟩, ?_⟩
    rw [hn]
    trivial
  refine ⟨⟨closedBy (afterBody closedFirst) "error" (some "boom") [], ?_, ?_⟩,
    ⟨⟨closedBy fresh "error" (some "t") settled, ?_, ?_⟩, ?_⟩,
    ⟨closedBy (afterBody closeAbandoned) "scope_exit" none settled, ?_, ?_⟩,
    .refused rfl rfl rfl, rfl⟩
  · exact .of_answer closed rfl rfl trivial rfl rfl rfl rfl rfl
  · decide
  · exact .of_answer closed rfl rfl (hsettles rfl rfl rfl) rfl rfl rfl rfl rfl
  · decide
  · decide
  · exact .of_answer closed rfl rfl (hsettles rfl rfl rfl) rfl rfl rfl rfl rfl
  · decide

end AgentBlock.Knl.Ending
