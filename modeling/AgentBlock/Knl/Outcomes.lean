/-
AgentBlock/Knl/Outcomes.lean

What a call that has returned did, and what it was answered, with any other
calls moving the database in between.

Main results:

* `reserve_seen`, `grantMore_seen`, `openChild_seen` — the one write of each
  call, and the answer it decides;
* `resume_seen`, `reopen_seen` — the reads of each call, in order, and the answer
  they decide;
* `seen_grows` — the log a call meets only grows while it runs.
-/
import AgentBlock.Knl.Changes

namespace AgentBlock.Knl

open Interleaving

variable {R : Database → Database → Prop} {α : Type}

/-- Some steps of the others. -/
abbrev Others (R : Database → Database → Prop) := Relation.ReflTransGen R

/-- What a call performed, in order. -/
abbrev Done := List (Performed Database StoreOp StoreOp.Ans)

/-- A call's path to an answer. -/
abbrev Returned (R : Database → Database → Prop)
    (p : Prog StoreOp StoreOp.Ans (Except KnlError α)) (db : Database) (done : Done)
    (r : Except KnlError α) (db' : Database) : Prop :=
  Prog.Seen Sem R p db done (.ret r) db'

section Steps

variable {db db' : Database} {done : Done} {r x : Except KnlError α}

theorem returned_ret (h : Returned R (.ret x) db done r db') :
    done = [] ∧ r = x ∧ Others R db db' := by
  obtain ⟨hd, hq, hR⟩ := Prog.Seen.of_ret h
  exact ⟨hd, by cases hq; rfl, hR⟩

/-- A call that starts with an operation and has returned performed it, and
either failed with its error or went on with its reply. -/
theorem returned_op {op : StoreOp} {f : op.Reply → Prog StoreOp StoreOp.Ans (Except KnlError α)}
    (h : Returned R (.op op (onReply f)) db done r db') :
    ∃ db₁ a db₂ rest, done = ⟨op, db₁, a, db₂⟩ :: rest ∧ Others R db db₁ ∧ Sem op db₁ a db₂ ∧
      ((∃ e, a = .error e ∧ r = .error e ∧ rest = [] ∧ Others R db₂ db') ∨
        ∃ reply, a = .ok reply ∧ Returned R (f reply) db₂ rest r db') := by
  rcases Prog.Seen.of_op h with ⟨-, hq, -⟩ | ⟨a, rest, db₁, db₂, hd, hR, hsem, hrest⟩
  · cases hq
  · refine ⟨db₁, a, db₂, rest, hd, hR, hsem, ?_⟩
    cases a with
    | error e =>
        obtain ⟨hnil, hr, hR'⟩ := returned_ret hrest
        exact Or.inl ⟨e, rfl, hr, hnil, hR'⟩
    | ok reply => exact Or.inr ⟨reply, rfl, hrest⟩

/-- **The log a call meets only grows while it runs.** -/
theorem seen_grows (hR : ∀ db db', R db db' → db <+: db')
    {p q : Prog StoreOp StoreOp.Ans (Except KnlError α)}
    (h : Prog.Seen Sem R p db done q db') :
    db <+: db' ∧ ∀ d ∈ done, db <+: d.before ∧ d.before <+: d.after ∧ d.after <+: db' :=
  h.between (fun _ => List.prefix_rfl) (fun _ _ _ => List.IsPrefix.trans) hR
    (fun _ _ _ _ => Sem.appends)

theorem others_grow (hR : ∀ db db', R db db' → db <+: db') (h : Others R db db') :
    db <+: db' := by
  induction h with
  | refl => exact List.prefix_rfl
  | tail _ hstep ih => exact ih.trans (hR _ _ hstep)

end Steps

section Calls

variable {db db' : Database} {done : Done} {r : Except KnlError Answer}

/-- What a reservation is answered, by what its decision was. -/
def reserveAnswer : Except KnlError (Option Committed × Cells) → Except KnlError Answer
  | .error e => .error e
  | .ok (committed, cells) => .ok (.allowed !(committed.isSome && cells.refused))

/-- A reservation on an open handle makes one write. -/
theorem reserve_seen {h : Session} {n : I64} (hopen : h.closed = false) (hn : 0 ≤ n.val)
    (hs : Returned R (body (.reserve h n)) db done r db') :
    ∃ db₁ a db₂, done = [⟨.appendIf h.store.stream (some BUDGET_KINDS)
        (reserveDecision n h.scope.id), db₁, a, db₂⟩] ∧
      Others R db db₁ ∧ Sem _ db₁ a db₂ ∧ r = reserveAnswer a := by
  rw [body_reserve, hopen, checkAmount_ok.mpr hn] at hs
  obtain ⟨db₁, a, db₂, rest, rfl, hR, hsem, ⟨e, rfl, rfl, rfl, -⟩ | ⟨reply, rfl, hrest⟩⟩ :=
    returned_op hs
  · exact ⟨db₁, _, db₂, rfl, hR, hsem, rfl⟩
  · obtain ⟨rfl, rfl, -⟩ := returned_ret hrest
    exact ⟨db₁, _, db₂, rfl, hR, hsem, rfl⟩

/-- A reservation that was answered was made on an open handle. -/
theorem reserve_answered {h : Session} {n : I64} {x : Answer}
    (hs : Returned R (body (.reserve h n)) db done (.ok x) db') :
    h.closed = false ∧ 0 ≤ n.val := by
  rw [body_reserve] at hs
  split at hs
  · cases (returned_ret hs).2.1
  · split at hs
    · cases (returned_ret hs).2.1
    · exact ⟨by simpa using ‹¬ h.closed = true›, checkAmount_ok.mp ‹_›⟩

/-- A call left the database as it found it, every time it touched it. -/
def Quiet (done : Done) : Prop := ∀ d ∈ done, d.after = d.before

@[simp] theorem quiet_nil : Quiet [] := fun _ hd => absurd hd List.not_mem_nil

@[simp] theorem quiet_cons {d : Performed Database StoreOp StoreOp.Ans} :
    Quiet (d :: done) ↔ d.after = d.before ∧ Quiet done := List.forall_mem_cons

theorem read_cases {s : String} {kinds : Option (List String)} {from_ : Nat}
    {limit : Option Nat} {db db' : Database} {a : StoreOp.Ans (.readKinds s kinds from_ limit)}
    (h : Sem _ db a db') :
    StoreFailed db a db' ∨ (a = .ok (selected (db.stream s) kinds from_ limit) ∧ db' = db) := by
  rcases h.cases' with hf | ⟨clock, rfl, rfl⟩
  · exact Or.inl hf
  · exact Or.inr ⟨rfl, rfl⟩

theorem head_cases {s : String} {db db' : Database} {a : StoreOp.Ans (.head s)}
    (h : Sem _ db a db') :
    StoreFailed db a db' ∨ (a = .ok ((db.stream s).getLast?.map Current.seq) ∧ db' = db) := by
  rcases h.cases' with hf | ⟨clock, rfl, rfl⟩
  · exact Or.inl hf
  · exact Or.inr ⟨rfl, rfl⟩

/-- A read that came back, or the store's failure handed on. -/
theorem returned_read {s : String} {kinds : Option (List String)} {from_ : Nat}
    {limit : Option Nat} {f : List Current → Prog StoreOp StoreOp.Ans (Except KnlError Answer)}
    (h : Returned R (.op (.readKinds s kinds from_ limit) (onReply f)) db done r db') :
    (∃ e : KnlError, e.isFault = true ∧ r = .error e ∧ Quiet done) ∨
      ∃ d rest, done = d :: rest ∧ d.after = d.before ∧ Others R db d.before ∧
        Returned R (f (selected (d.before.stream s) kinds from_ limit)) d.before rest r db' := by
  obtain ⟨db₁, a, db₂, rest, rfl, hR, hsem, hrest⟩ := returned_op h
  rcases read_cases hsem with ⟨e, he, rfl, rfl⟩ | ⟨rfl, rfl⟩
  · rcases hrest with ⟨e', he', rfl, rfl, -⟩ | ⟨reply, hreply, -⟩
    · cases he'
      exact Or.inl ⟨e, he, rfl, by simp⟩
    · cases hreply
  · rcases hrest with ⟨e', he', -⟩ | ⟨reply, hreply, hrest⟩
    · cases he'
    · cases hreply
      exact Or.inr ⟨_, rest, rfl, rfl, hR, hrest⟩

theorem ending_isEmpty {events : List Current} :
    (selected events (some [KIND_SESSION_CLOSED]) 0 (some 1)).isEmpty = true ↔
      ¬ Ended events := by
  simp [selected, Ended]

/-- **Why a resume finds no session**: the store failed, or the log it read had
no opening, or the stream had an ending when that was asked. -/
inductive NotFound (store : Store) (done : Done) : KnlError → Prop
  | failed {e : KnlError} : e.isFault = true → NotFound store done e
  | noSession {d : Performed Database StoreOp StoreOp.Ans} : d ∈ done →
      ((d.before.stream store.stream).find? fun e => e.kind = KIND_SESSION_OPENED) = none →
      NotFound store done
        (.validation "stream has no session to resume (no session_opened event)")
  | ended {d : Performed Database StoreOp StoreOp.Ans} : d ∈ done →
      Ended (d.before.stream store.stream) →
      NotFound store done (.closed (CLOSED ++ " (disposable; open a new session)"))

/-- What a resume finds: `read` showed the log and its opening, and `asked`
showed no ending. -/
structure Session.Read (R : Database → Database → Prop) (store : Store) (db : Database)
    (opened : Current) (read asked : Performed Database StoreOp StoreOp.Ans) : Prop where
  quiet : Quiet [read, asked]
  first : Others R db read.before
  second : Others R read.before asked.before
  opening : ((read.before.stream store.stream).find? fun e => e.kind = KIND_SESSION_OPENED) =
    some opened
  open_ : ¬ Ended (asked.before.stream store.stream)

/-- The reads every resume starts with. -/
theorem restore_seen {store : Store}
    {f : Current → List Current → Prog StoreOp StoreOp.Ans (Except KnlError Answer)}
    (hs : Returned R (.op (.readKinds store.stream none 0 none) (onReply fun log =>
        match log.find? fun event => event.kind = KIND_SESSION_OPENED with
        | none => .ret (.error (.validation
            "stream has no session to resume (no session_opened event)"))
        | some opened => .op (.readKinds store.stream (some [KIND_SESSION_CLOSED]) 0 (some 1))
            (onReply fun ending =>
              if ¬ ending.isEmpty then
                .ret (.error (.closed (CLOSED ++ " (disposable; open a new session)")))
              else f opened log))) db done r db') :
    (∃ e, r = .error e ∧ NotFound store done e ∧ Quiet done) ∨
      ∃ opened read asked rest, done = read :: asked :: rest ∧
        Session.Read R store db opened read asked ∧
        Returned R (f opened (read.before.stream store.stream)) asked.before rest r db' := by
  rcases returned_read hs with ⟨e, he, rfl, hq⟩ | ⟨read, rest, rfl, hd₁, hR₁, hs⟩
  · exact Or.inl ⟨e, rfl, .failed he, hq⟩
  rw [selected_all] at hs
  cases ho : (read.before.stream store.stream).find? fun e => e.kind = KIND_SESSION_OPENED with
  | none =>
      simp only [ho] at hs
      obtain ⟨rfl, rfl, hR⟩ := returned_ret hs
      exact Or.inl ⟨_, rfl, .noSession List.mem_cons_self ho, by simp [hd₁]⟩
  | some opened =>
      simp only [ho] at hs
      rcases returned_read hs with ⟨e, he, rfl, hq⟩ | ⟨asked, rest, rfl, hd₂, hR₂, hs⟩
      · exact Or.inl ⟨e, rfl, .failed he, by simp [hd₁, hq]⟩
      by_cases hend : Ended (asked.before.stream store.stream)
      · rw [if_pos (by rw [ending_isEmpty]; exact not_not.mpr hend)] at hs
        obtain ⟨rfl, rfl, hR⟩ := returned_ret hs
        exact Or.inl ⟨_, rfl, .ended (List.mem_cons_of_mem _ List.mem_cons_self) hend,
          by simp [hd₁, hd₂]⟩
      · rw [if_neg (by rw [ending_isEmpty]; exact not_not.mpr hend)] at hs
        exact Or.inr ⟨opened, read, asked, rest, rfl,
          ⟨by simp [hd₁, hd₂], hR₁, hR₂, ho, hend⟩, hs⟩

theorem resume_seen {m : Minted} {grant : Option BudgetGrant} {store : Store}
    (hs : Returned R (body (.resume m grant store)) db done r db') :
    (∃ e, r = .error e ∧ NotFound store done e ∧ Quiet done) ∨
      ∃ opened read asked rest, done = read :: asked :: rest ∧
        Session.Read R store db opened read asked ∧
        Returned R (match grant with
          | none => .ret (.ok (.session
              (Session.restored m opened (read.before.stream store.stream) store)))
          | some g => body (.grantOnResume
              (Session.restored m opened (read.before.stream store.stream) store) g))
          asked.before rest r db' := by
  rw [body_resume] at hs
  exact restore_seen hs

/-- A child's handle is the session its stream describes. -/
theorem reopen_seen {m : Minted} {childStream : String} {store : Store}
    (hs : Returned R (reopen m childStream store) db done r db') :
    Quiet done ∧ ((∃ e, r = .error e ∧ NotFound store done e) ∨
      ∃ opened read asked, done = [read, asked] ∧ Session.Read R store db opened read asked ∧
        r = .ok (.session ((Session.restored m opened (read.before.stream store.stream)
          store).adoptId childStream))) := by
  rw [reopen_eq] at hs
  rcases restore_seen hs with ⟨e, hr, hf, hq⟩ | ⟨opened, read, asked, rest, rfl, hread, hs⟩
  · exact ⟨hq, Or.inl ⟨e, hr, hf⟩⟩
  · obtain ⟨rfl, rfl, -⟩ := returned_ret hs
    exact ⟨hread.quiet, Or.inr ⟨opened, read, asked, rfl, hread, rfl⟩⟩

/-- A grant on a resume is refused before anything, or makes one write. -/
theorem grantOnResume_seen {h : Session} {grant : BudgetGrant}
    (hs : Returned R (body (.grantOnResume h grant)) db done r db') :
    (grant.amount.val < 0 ∧ done = [] ∧ ∃ e, e.isValidation = true ∧ r = .error e) ∨
      (0 ≤ grant.amount.val ∧ ∃ db₁ a db₂, done = [⟨.appendIf h.store.stream (some BUDGET_KINDS)
        (resumeGrantDecision grant h.scope.id), db₁, a, db₂⟩] ∧ Others R db db₁ ∧
        Sem _ db₁ a db₂ ∧ r = match a with
          | .error e => .error e
          | .ok reply => resumeGrantAnswer h grant reply.1) := by
  rw [body_grantOnResume] at hs
  by_cases hn : 0 ≤ grant.amount.val
  · rw [checkAmount_ok.mpr hn] at hs
    obtain ⟨db₁, a, db₂, rest, rfl, hR, hsem, ⟨e, rfl, rfl, rfl, -⟩ | ⟨reply, rfl, hrest⟩⟩ :=
      returned_op hs
    · exact Or.inr ⟨hn, db₁, _, db₂, rfl, hR, hsem, rfl⟩
    · obtain ⟨rfl, rfl, -⟩ := returned_ret hrest
      exact Or.inr ⟨hn, db₁, _, db₂, rfl, hR, hsem, rfl⟩
  · obtain ⟨e, he, hv⟩ := checkAmount_error (not_le.mp hn)
    rw [he] at hs
    obtain ⟨rfl, rfl, -⟩ := returned_ret hs
    exact Or.inl ⟨not_le.mp hn, rfl, e, hv, rfl⟩

/-- Granting more makes its one write before it looks at the amount. -/
theorem grantMore_seen {h : Session} {grant : BudgetGrant} (hopen : h.closed = false)
    (hs : Returned R (body (.grantMore h grant)) db done r db') :
    ∃ db₁ a db₂, done = [⟨.append h.store.stream (grantedEvent grant h.scope.id), db₁, a, db₂⟩] ∧
      Others R db db₁ ∧ Sem _ db₁ a db₂ ∧
      ((∃ e, a = .error e ∧ r = .error e) ∨
        ∃ c, a = .ok c ∧ ((grant.amount.val < 0 ∧ ∃ e, e.isValidation = true ∧ r = .error e) ∨
          (0 ≤ grant.amount.val ∧ r = .ok (.session
            { h with scope := { h.scope with grant := some grant } })))) := by
  rw [body_grantMore, if_neg (by simp [hopen])] at hs
  obtain ⟨db₁, a, db₂, rest, rfl, hR, hsem, ⟨e, rfl, rfl, rfl, -⟩ | ⟨reply, rfl, hrest⟩⟩ :=
    returned_op hs
  · exact ⟨db₁, _, db₂, rfl, hR, hsem, Or.inl ⟨e, rfl, rfl⟩⟩
  · by_cases hn : 0 ≤ grant.amount.val
    · simp only [checkAmount_ok.mpr hn] at hrest
      obtain ⟨rfl, rfl, -⟩ := returned_ret hrest
      exact ⟨db₁, _, db₂, rfl, hR, hsem, Or.inr ⟨_, rfl, Or.inr ⟨hn, rfl⟩⟩⟩
    · obtain ⟨e, he, hv⟩ := checkAmount_error (not_le.mp hn)
      simp only [he] at hrest
      obtain ⟨rfl, rfl, -⟩ := returned_ret hrest
      exact ⟨db₁, _, db₂, rfl, hR, hsem, Or.inr ⟨_, rfl, Or.inl ⟨not_le.mp hn, e, hv, rfl⟩⟩⟩

/-- **What becomes of an allocation** whose write went from `db₁` to `db₂`:
the store failed, or nothing was written and the error says why, or a refusal
was, or all three events were and the child is resumed from its stream. -/
inductive Allotted (R : Database → Database → Prop) (s : String) (plan : AllocationPlan)
    (m : Minted) (childStore : Store) (db₁ db₂ : Database) (rest : Done) (db' : Database) :
    Except KnlError Answer → Prop
  | failed {e : KnlError} : e.isFault = true → db₂ = db₁ →
      Allotted R s plan m childStore db₁ db₂ rest db' (.error e)
  | occupied {why : String} : db₁.stream plan.child ≠ [] → db₂ = db₁ →
      Allotted R s plan m childStore db₁ db₂ rest db' (.error (.validation why))
  | ended {why : String} : db₁.stream plan.child = [] → Ended (db₁.stream s) → db₂ = db₁ →
      Allotted R s plan m childStore db₁ db₂ rest db' (.error (.closed why))
  | refused {why : String} {b : I64} {ev : Current} : db₁.stream plan.child = [] →
      ¬ Ended (db₁.stream s) → foldBalance (db₁.stream s) = some b → b.val < plan.amount.val →
      view ev = ⟨KIND_BUDGET_REFUSED, plan.amount, some plan.child, none⟩ →
      db₂ = db₁ ++ [⟨s, ev⟩] →
      Allotted R s plan m childStore db₁ db₂ rest db' (.error (.refused why))
  | labels {e : KnlError} : Covers db₁ s plan.child plan.amount →
      checkMeta (plan.labels.map Json.obj) = .error e → db₂ = db₁ →
      Allotted R s plan m childStore db₁ db₂ rest db' (.error e)
  | opened {r : Except KnlError Answer} : Covers db₁ s plan.child plan.amount →
      checkMeta (plan.labels.map Json.obj) = .ok () → Allocated db₁ db₂ s plan →
      Returned R (reopen m plan.child childStore) db₂ rest r db' →
      Allotted R s plan m childStore db₁ db₂ rest db' r

/-- What follows the write of an allocation, by what it was answered. -/
def allocationRest (R : Database → Database → Prop) (childStream : String) (amount : I64)
    (m : Minted) (childStore : Store) (db₂ : Database) (rest : Done)
    (r : Except KnlError Answer) (db' : Database) :
    Except KnlError (Option (Split Committed) × Cells) → Prop
  | .error e => r = .error e ∧ rest = []
  | .ok reply => match allocationError childStream amount reply.1.isSome reply.2 with
    | some e => r = .error e ∧ rest = []
    | none => Returned R (reopen m childStream childStore) db₂ rest r db'

/-- **An allocation makes one write**, and the rest of it only reads. -/
theorem openChild_seen {h : Session} {m : Minted} {childScope childStream owner : String}
    {allocation : Allocation} {labels : Option Obj} {childStore : Store}
    (hopen : h.closed = false) (hn : 0 ≤ allocation.amount.val)
    (hdb : Session.checkDatabase h.store.database childStore.database = .ok ())
    (hs : Returned R (body (.openChild h m childScope childStream owner allocation labels
      childStore)) db done r db') :
    ∃ d rest, done = d :: rest ∧ Quiet rest ∧ Others R db d.before ∧
      Sem d.op d.before d.ans d.after ∧
        Allotted R h.store.stream (h.plan childScope childStream owner allocation labels) m
        childStore d.before d.after rest db' r := by
  rw [body_openChild, hopen, checkAmount_ok.mpr hn, hdb] at hs
  obtain ⟨db₁, a, db₂, rest, rfl, hR, hsem, hans⟩ := returned_op hs
  -- what follows the write depends on what it was answered alone
  have hrest : allocationRest R childStream allocation.amount m childStore db₂ rest r db' a := by
    rcases hans with ⟨e, rfl, rfl, rfl, -⟩ | ⟨reply, rfl, hans⟩
    · exact ⟨rfl, rfl⟩
    · unfold allocationRest
      split at hans <;> rename_i he
      · simp only [he]
        obtain ⟨rfl, rfl, -⟩ := returned_ret hans
        exact ⟨rfl, rfl⟩
      · simpa only [he] using hans
  clear hans hs
  rcases @allocation_cases _ _ _ (h.plan childScope childStream owner allocation labels) _ hsem with
    ⟨e, he, rfl, rfl⟩ | ⟨hocc, rfl, rfl⟩ | ⟨hch, hend, rfl, rfl⟩ |
    ⟨b, ev, c, hch, hend, hb, hlt, hv, rfl, rfl⟩ | ⟨hcov, e, hlab, rfl, rfl⟩ |
    ⟨hcov, hlab, ⟨c, rfl⟩, ⟨hall⟩⟩
  · obtain ⟨rfl, rfl⟩ := hrest
    exact ⟨_, _, rfl, quiet_nil, hR, hsem, .failed he rfl⟩
  · obtain ⟨rfl, rfl⟩ := hrest
    exact ⟨_, _, rfl, quiet_nil, hR, hsem, .occupied hocc rfl⟩
  · obtain ⟨rfl, rfl⟩ := hrest
    exact ⟨_, _, rfl, quiet_nil, hR, hsem, .ended hch hend rfl⟩
  · obtain ⟨rfl, rfl⟩ := hrest
    exact ⟨_, _, rfl, quiet_nil, hR, hsem, .refused hch hend hb hlt hv rfl⟩
  · obtain ⟨rfl, rfl⟩ := hrest
    exact ⟨_, _, rfl, quiet_nil, hR, hsem, .labels hcov hlab rfl⟩
  · exact ⟨_, _, rfl, (reopen_seen hrest).1, hR, hsem, .opened hcov hlab hall hrest⟩

/-- An allocation that was answered passed every check made before the
store. -/
theorem openChild_answered {h : Session} {m : Minted} {childScope childStream owner : String}
    {allocation : Allocation} {labels : Option Obj} {childStore : Store} {x : Answer}
    (hs : Returned R (body (.openChild h m childScope childStream owner allocation labels
      childStore)) db done (.ok x) db') :
    h.closed = false ∧ 0 ≤ allocation.amount.val ∧
      Session.checkDatabase h.store.database childStore.database = .ok () := by
  rw [body_openChild] at hs
  split at hs
  · cases (returned_ret hs).2.1
  · split at hs
    · cases (returned_ret hs).2.1
    · split at hs
      · cases (returned_ret hs).2.1
      · exact ⟨by simpa using ‹¬ h.closed = true›, checkAmount_ok.mp ‹_›, ‹_›⟩

/-- An allocation that fails a check made before the store fails with nothing
performed. -/
theorem openChild_unchecked {h : Session} {m : Minted} {childScope childStream owner : String}
    {allocation : Allocation} {labels : Option Obj} {childStore : Store}
    (hno : ¬ (h.closed = false ∧
      Session.checkDatabase h.store.database childStore.database = .ok ()))
    (hs : Returned R (body (.openChild h m childScope childStream owner allocation labels
      childStore)) db done r db') : done = [] ∧ ∃ e, r = .error e := by
  rw [body_openChild] at hs
  split at hs
  · obtain ⟨hd, hr, -⟩ := returned_ret hs
    exact ⟨hd, _, hr⟩
  · split at hs
    · obtain ⟨hd, hr, -⟩ := returned_ret hs
      exact ⟨hd, _, hr⟩
    · split at hs
      · obtain ⟨hd, hr, -⟩ := returned_ret hs
        exact ⟨hd, _, hr⟩
      · exact absurd ⟨by simpa using ‹¬ h.closed = true›, ‹_›⟩ hno

end Calls

end AgentBlock.Knl
