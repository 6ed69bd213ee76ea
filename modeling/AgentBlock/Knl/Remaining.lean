/-
AgentBlock/Knl/Remaining.lean

What remains, asked of one handle by any number of calls at once.

The calls share the balance the handle keeps: each copies it, asks for the
head, and if that has moved reads the ledger and puts the new balance back, a
step at a time.  Two calls may put theirs back in either order, so the balance
that is kept may get older; it stays the fold of a log at least as long as the
head beside it (`Kept`), and that is all an answer needs.

`remaining_alone` says that a call with nobody else at the handle is the
`remaining` of a session.
-/
import AgentBlock.Knl.Resume

namespace AgentBlock.Knl

open Interleaving

/-! ### The calls -/

/-- A step at the handle: the balance it keeps is copied or replaced, or the
store is called. -/
inductive HandleOp where
  | balance
  | keep (head : Nat) (balance : Option I64)
  | store (op : StoreOp)

def HandleOp.Ans : HandleOp → Type
  | .balance => Nat × Option I64
  | .keep .. => Unit
  | .store op => op.Ans

/-- A database, and the balance the handle keeps. -/
structure Handled where
  db : Database
  balance : Nat × Option I64

/-- One step. -/
inductive HandleSem : (e : HandleOp) → Handled → e.Ans → Handled → Prop
  | balance (σ : Handled) : HandleSem .balance σ σ.balance σ
  | keep (σ : Handled) (head : Nat) (b : Option I64) :
      HandleSem (.keep head b) σ () { σ with balance := (head, b) }
  | store {op : StoreOp} {σ : Handled} {a : op.Ans} {db : Database} :
      Sem op σ.db a db → HandleSem (.store op) σ a { σ with db := db }

/-- A call at the handle. -/
abbrev HandleProg (α : Type) := Prog HandleOp HandleOp.Ans (Except KnlError α)

/-- Make one call of the store, and hand its failure on. -/
def onStore {α : Type} (op : StoreOp) (k : op.Reply → HandleProg α) : HandleProg α :=
  .op (.store op) fun
    | .error e => .ret (.error e)
    | .ok reply => k reply

/-- The balance of the ledger as it was read, kept beside the head that was
asked before. -/
def refold (head : Nat) (ledger : List Current) : HandleProg (Option I64) :=
  .op (.keep head (foldBalance ledger)) fun _ => .ret (.ok (foldBalance ledger))

/-- What is done with a head that was asked behind the copy. -/
def fromHead (s : String) (cached : Nat × Option I64) (head : Option Nat) :
    HandleProg (Option I64) :=
  if head.getD 0 ≤ cached.1 then .ret (.ok cached.2)
  else onStore (.readKinds s (some BUDGET_KINDS) 0 none) (refold (head.getD 0))

/-- The remaining balance of the stream. -/
def remaining (s : String) : HandleProg (Option I64) :=
  .op .balance fun cached => onStore (.head s) (fromHead s cached)

/-- A call that asks what remains, or one store call of any other, through this
handle or another. -/
inductive HandleCall where
  | remaining
  | other (op : StoreOp)

def handleBody (s : String) : HandleCall → HandleProg (Option I64)
  | .remaining => remaining s
  | .other op => onStore op fun _ => .ret (.ok none)

/-! ### A call with nobody else at the handle -/

/-- A call whose steps at the balance are its own. -/
def alone {α : Type} : Prog HandleOp HandleOp.Ans α → Nat × Option I64 →
    Prog StoreOp StoreOp.Ans (α × (Nat × Option I64))
  | .ret a, b => .ret (a, b)
  | .op .balance k, b => alone (k b) b
  | .op (.keep head balance) k, _ => alone (k ()) (head, balance)
  | .op (.store op) k, b => .op op fun a => alone (k a) b

/-- What a session's own call returns, and the balance it leaves. -/
def left (h : Session) : Except KnlError Answer → Except KnlError (Option I64) × (Nat × Option I64)
  | .ok (.balance h' b) => (.ok b, h'.balance)
  | .ok _ => (.ok none, h.balance)
  | .error e => (.error e, h.balance)

/-- **Alone at the handle, this is the session's `remaining`.** -/
theorem remaining_alone (h : Session) :
    alone (remaining h.store.stream) h.balance =
      (body (.remaining h) >>= fun r => .ret (left h r)) := by
  rw [body_remaining]
  refine op_congr _ fun a => ?_
  cases a with
  | error e => rfl
  | ok head =>
      have hcases : alone (fromHead h.store.stream h.balance head) h.balance =
          if head.getD 0 ≤ h.balance.1 then .ret (.ok h.balance.2, h.balance)
          else alone (onStore (.readKinds h.store.stream (some BUDGET_KINDS) 0 none)
            (refold (head.getD 0))) h.balance := by
        unfold fromHead
        split
        · rfl
        · rfl
      refine hcases.trans ?_
      show _ = Prog.bind (if head.getD 0 ≤ h.balance.1 then _ else _) _
      split
      · rfl
      · refine op_congr _ fun a => ?_
        cases a <;> rfl

/-! ### Where a call is -/

/-- The pair is a balance of the stream: the fold of a log that the stream had,
at least as long as the head. -/
def Kept (db : Database) (s : String) (kept : Nat × Option I64) : Prop :=
  ∃ log, log <+: db.stream s ∧ kept.1 ≤ log.length ∧ kept.2 = foldBalance log

/-- What a call performed at the handle. -/
abbrev HandleDone := List (Performed Handled HandleOp HandleOp.Ans)

/-- The balance is that of the stream at one of the steps performed. -/
def Seen (s : String) (done : HandleDone) (b : Option I64) : Prop :=
  ∃ d ∈ done, b = foldBalance (d.before.db.stream s)

/-- Where a call is, with what it has read. -/
inductive Stage (s : String) (db : Database) : HandleCall → HandleDone →
    HandleProg (Option I64) → Prop
  | called {done : HandleDone} : Stage s db .remaining done (remaining s)
  | copied {done : HandleDone} {cached : Nat × Option I64} : Kept db s cached →
      Stage s db .remaining done (onStore (.head s) (fromHead s cached))
  | asked {done : HandleDone} {head : Nat} : head ≤ (db.stream s).length →
      Stage s db .remaining done
        (onStore (.readKinds s (some BUDGET_KINDS) 0 none) (refold head))
  | folded {done : HandleDone} {head : Nat} {ledger : List Current} :
      Kept db s (head, foldBalance ledger) → Seen s done (foldBalance ledger) →
      Stage s db .remaining done (refold head ledger)
  | failed {c : HandleCall} {done : HandleDone} {e : KnlError} : Stage s db c done (.ret (.error e))
  | answered {done : HandleDone} {b : Option I64} : Seen s done b →
      Stage s db .remaining done (.ret (.ok b))
  | other {done : HandleDone} {op : StoreOp} :
      Stage s db (.other op) done (handleBody s (.other op))
  | done {done : HandleDone} {op : StoreOp} : Stage s db (.other op) done (.ret (.ok none))

section Stage

variable {s : String} {db db' : Database}

theorem Kept.grows {kept : Nat × Option I64} (h : Kept db s kept) (hp : db <+: db') :
    Kept db' s kept := by
  obtain ⟨log, hlog, hlen, hb⟩ := h
  exact ⟨log, hlog.trans (Database.stream_grows hp), hlen, hb⟩

/-- Where the head has not moved past it, a kept balance is the stream's. -/
theorem Kept.fold {kept : Nat × Option I64} (h : Kept db s kept)
    (hhead : (db.stream s).length ≤ kept.1) : kept.2 = foldBalance (db.stream s) := by
  obtain ⟨log, hlog, hlen, hb⟩ := h
  rw [hb, hlog.eq_of_length_le (hhead.trans hlen)]

/-- The others move no call from where it is. -/
theorem Stage.grows {c : HandleCall} {done : HandleDone} {rest : HandleProg (Option I64)}
    (h : Stage s db c done rest) (hp : db <+: db') : Stage s db' c done rest := by
  cases h with
  | called => exact .called
  | copied hk => exact .copied (hk.grows hp)
  | asked hhead => exact .asked (hhead.trans (Database.stream_grows hp).length_le)
  | folded hk hseen => exact .folded (hk.grows hp) hseen
  | failed => exact .failed
  | answered hseen => exact .answered hseen
  | other => exact .other
  | done => exact .done

theorem Stage.call (c : HandleCall) : Stage s db c [] (handleBody s c) := by
  cases c with
  | remaining => exact .called
  | other op => exact .other

end Stage

section Step

variable {s : String} {σ σ' : Handled}

/-- What holds of the handle between any two steps. -/
structure HandleOk (s : String) (σ : Handled) : Prop where
  numbered : Numbered σ.db
  kept : Kept σ.db s σ.balance

/-- A store call leaves the balance alone. -/
theorem HandleOk.store {op : StoreOp} {a : op.Ans} {db : Database} (h : HandleOk s σ)
    (hsem : Sem op σ.db a db) : HandleOk s { σ with db := db } :=
  ⟨h.numbered.sem hsem, h.kept.grows hsem.appends⟩

/-- The head a call was told, as the number of events there were. -/
theorem head_told {head : Option Nat} {db : Database} (hn : Numbered σ.db)
    (hsem : Sem (.head s) σ.db (.ok head) db) :
    db = σ.db ∧ head.getD 0 = (σ.db.stream s).length := by
  rcases head_cases hsem with ⟨e, -, he, -⟩ | ⟨hans, rfl⟩
  · cases he
  · obtain rfl := Except.ok.inj hans
    exact ⟨rfl, hn.head s⟩

/-- The ledger a call was given folds to the balance there was. -/
theorem ledger_told {ledger : List Current} {db : Database}
    (hsem : Sem (.readKinds s (some BUDGET_KINDS) 0 none) σ.db (.ok ledger) db) :
    db = σ.db ∧ foldBalance ledger = foldBalance (σ.db.stream s) := by
  rcases read_cases hsem with ⟨e, -, he, -⟩ | ⟨hans, rfl⟩
  · cases he
  · obtain rfl := Except.ok.inj hans
    exact ⟨rfl, foldBalance_budgetKinds _⟩

/-- **One step of a call**: the handle stays in order, the log grows, and the
call goes on to its next stage. -/
theorem Stage.step {c : HandleCall} {done : HandleDone} {e : HandleOp}
    {k : e.Ans → HandleProg (Option I64)} {a : e.Ans} (hok : HandleOk s σ)
    (h : Stage s σ.db c done (.op e k)) (hsem : HandleSem e σ a σ') :
    HandleOk s σ' ∧ σ.db <+: σ'.db ∧ Stage s σ'.db c (done ++ [⟨e, σ, a, σ'⟩]) (k a) := by
  generalize hrest : Prog.op e k = rest at h
  cases h with
  | called =>
      cases hrest
      cases hsem
      exact ⟨hok, List.prefix_rfl, .copied hok.kept⟩
  | copied hk =>
      cases hrest
      cases hsem with
      | store hstore =>
      refine ⟨hok.store hstore, hstore.appends, ?_⟩
      cases a with
      | error e => exact .failed
      | ok head =>
          obtain ⟨rfl, hhead⟩ := head_told hok.numbered hstore
          show Stage s σ.db _ _ (fromHead s _ head)
          unfold fromHead
          split
          · next hle =>
            -- the head has not moved: the copy is the balance of this moment
            rw [hhead] at hle
            exact .answered ⟨_, List.mem_append_right _ (List.mem_singleton.mpr rfl), hk.fold hle⟩
          · exact .asked (Nat.le_of_eq hhead)
  | asked hhead =>
      cases hrest
      cases hsem with
      | store hstore =>
      refine ⟨hok.store hstore, hstore.appends, ?_⟩
      cases a with
      | error e => exact .failed
      | ok ledger =>
          obtain ⟨rfl, hfold⟩ := ledger_told hstore
          refine .folded ⟨_, List.prefix_rfl, hhead, hfold⟩ ?_
          exact ⟨_, List.mem_append_right _ (List.mem_singleton.mpr rfl), hfold⟩
  | folded hk hseen =>
      cases hrest
      cases hsem
      obtain ⟨d, hd, hb⟩ := hseen
      exact ⟨⟨hok.numbered, hk⟩, List.prefix_rfl, .answered ⟨d, List.mem_append_left _ hd, hb⟩⟩
  | failed => cases hrest
  | answered => cases hrest
  | other =>
      cases hrest
      cases hsem with
      | store hstore =>
      refine ⟨hok.store hstore, hstore.appends, ?_⟩
      cases a with
      | error e => exact .failed
      | ok reply => exact .done
  | done => cases hrest

end Step

/-! ### Every run of calls at a handle -/

/-- The handles over one database that calls at one of them can reach. -/
abbrev HandlePool := Pool Handled HandleCall HandleOp HandleOp.Ans (Except KnlError (Option I64))

/-- Any number of the calls, interleaved step by step. -/
def AtHandle (s : String) (σ : Handled) (p : HandlePool) : Prop :=
  Pool.Runs HandleSem (handleBody s) (fun _ _ => True) (Pool.start σ) p

/-- The invariant, of the handle and of every call. -/
theorem AtHandle.stages {s : String} {σ : Handled} {p : HandlePool} (hσ : HandleOk s σ)
    (h : AtHandle s σ p) :
    HandleOk s p.shared ∧ ∀ t ∈ p.threads, Stage s p.shared.db t.call t.done t.rest := by
  refine @Pool.inv_threads _ _ _ _ _ _ _ _ (HandleOk s) (fun σ σ' => σ.db <+: σ'.db)
    (fun σ c done rest => Stage s σ.db c done rest) ?_ ?_ ?_ σ p hσ h
  · exact fun _ c _ _ => Stage.call c
  · exact fun _ _ _ _ _ _ _ hok hstage hsem => hstage.step hok hsem
  · exact fun _ _ _ _ _ hle hstage => hstage.grows hle

/-- The store did something. -/
def Stored (db db' : Database) : Prop := ∃ (op : StoreOp) (a : op.Ans), Sem op db a db'

theorem stored_numbers : Numbers Stored := by
  rintro db db' ⟨op, a, hsem⟩
  exact ⟨hsem.appends, fun hn => hn.sem hsem⟩

theorem seen_numbered {R : Database → Database → Prop} (hR : Numbers R) {α : Type}
    {p q : Prog StoreOp StoreOp.Ans (Except KnlError α)} {db db' : Database} {done : Done}
    (h : Prog.Seen Sem R p db done q db') (hn : Numbered db) : Numbered db' := by
  induction h with
  | refl => exact hn
  | other _ hstep ih => exact (hR _ _ hstep).2 (ih hn)
  | own _ hsem ih => exact (ih hn).sem hsem

/-- The calls that hand out a handle on a stream: an opening, a resume, or the
opening of a child. -/
inductive HandsOut : Call → Prop
  | openOn {m : Minted} {owner : String} {grant : Option BudgetGrant} {labels : Option Obj}
      {store : Store} : HandsOut (.openOn m owner grant labels store)
  | resume {m : Minted} {grant : Option BudgetGrant} {store : Store} :
      HandsOut (.resume m grant store)
  | openChild {h : Session} {m : Minted} {childScope childStream owner : String}
      {allocation : Allocation} {labels : Option Obj} {childStore : Store} :
      HandsOut (.openChild h m childScope childStream owner allocation labels childStore)

theorem HandsOut.cached {R : Database → Database → Prop} {db db' : Database} {done : Done}
    {c : Call} {h : Session} (hc : HandsOut c) (hR : Numbers R) (hn : Numbered db)
    (hs : Returned R (body c) db done (.ok (.session h)) db') : Cached db' h := by
  have hall : ∀ h' ∈ Answer.handle (.session h), Cached db' h' := by
    cases hc with
    | openOn =>
        refine answer_cached hR hn ?_ hs
        rintro _ ⟨⟩
    | resume =>
        refine answer_cached hR hn ?_ hs
        rintro _ ⟨⟩
    | openChild => exact openChild_cached hR hn hs
  exact hall h rfl

/-- **What remains is never stale and never invented.**  A handle is handed out
while others use the store, and calls are made at it, any number at once and
mixed with calls of others.  Then what it keeps is always the fold of a log its
stream had, at least as long as the head beside it, and is the balance where
the head has not moved past that; and what a call answers is the balance of the
stream at one of the call's own steps. -/
theorem remaining_current {c : Call} {db db' : Database} {done : Done} {h : Session}
    {p : HandlePool} (hc : HandsOut c) (hdb : Others Stored [] db)
    (hmade : Returned Stored (body c) db done (.ok (.session h)) db')
    (hp : AtHandle h.store.stream ⟨db', h.balance⟩ p) :
    Kept p.shared.db h.store.stream p.shared.balance ∧
      (((p.shared.db.stream h.store.stream).getLast?.map Current.seq).getD 0 ≤ p.shared.balance.1 →
        p.shared.balance.2 = foldBalance (p.shared.db.stream h.store.stream)) ∧
      (∀ t ∈ p.threads, t.call = .remaining → ∀ b, t.rest = .ret (.ok b) →
        Seen h.store.stream t.done b) ∧
      ∀ log, foldBalance (selected log (some BUDGET_KINDS) 0 none) = foldBalance log := by
  obtain ⟨-, hn⟩ := stored_numbers.others hdb
  have hcached := hc.cached stored_numbers (hn numbered_nil) hmade
  have hok₀ : HandleOk h.store.stream ⟨db', h.balance⟩ :=
    ⟨seen_numbered stored_numbers hmade (hn numbered_nil), hcached⟩
  obtain ⟨hok, hstages⟩ := AtHandle.stages hok₀ hp
  refine ⟨hok.kept, fun hhead => ?_, fun t ht hcall b hb => ?_, foldBalance_budgetKinds⟩
  · rw [hok.numbered.head] at hhead
    exact hok.kept.fold hhead
  · have hstage := hstages t ht
    rw [hcall, hb] at hstage
    cases hstage with
    | answered hseen => exact hseen

/-- The steps of a store that does not fail, by the clock it reads. -/
def handled (clock : Nat → Nat) : (e : HandleOp) → Handled → e.Ans × Handled
  | .balance, σ => (σ.balance, σ)
  | .keep head b, σ => ((), { σ with balance := (head, b) })
  | .store op, σ => ((exec clock σ.db op).1, { σ with db := (exec clock σ.db op).2 })

theorem handled_sem (clock : Nat → Nat) (e : HandleOp) (σ : Handled) :
    HandleSem e σ (handled clock e σ).1 (handled clock e σ).2 := by
  cases e with
  | balance => exact .balance σ
  | keep head b => exact .keep σ head b
  | store op => exact .store (.done clock op σ.db)

/-- Two calls at a handle that was just handed out, and a deduction between
them. -/
theorem remaining_current_twice :
    ∃ (db : Database) (p : HandlePool), AtHandle "root" ⟨db, (0, none)⟩ p ∧
      p.threads.length = 3 ∧ Kept p.shared.db "root" p.shared.balance := by
  obtain ⟨done, hmade⟩ := Prog.seen_run (R := Stored) (fun op db => Sem.done still op db)
    (body openRoot) []
  have h : Pool.TurnsAllowed (handled still) (handleBody "root") (fun _ _ => True)
      [.call .remaining, .perform 0, .call .remaining, .perform 1,
        .call (.other (.append "root" (budgetMoveEvent KIND_BUDGET_SPENT 2 none "scope"))),
        .perform 2, .perform 1, .perform 0, .perform 0, .perform 1, .perform 1, .perform 0]
      (Pool.start ⟨((body openRoot).run (works still) []).2, (0, none)⟩) :=
    ⟨trivial, trivial, trivial, trivial⟩
  have hrun := Pool.runs_turns (handled_sem still) h
  exact ⟨_, _, hrun, rfl, (remaining_current .openOn .refl hmade hrun).1⟩

end AgentBlock.Knl
