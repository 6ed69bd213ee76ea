/-
AgentBlock/Knl/Resume.lean

What a resume restores, and what a handle says remains.

A handle keeps the last balance it folded and the head of the stream it was
folded at, and answers from there as long as the head has not moved.  A
stream's seqs are its positions, so an unmoved head is an unmoved log.

Main results:

* `remaining_eq_fold` — through any handle, `remaining` is the fold of the
  stream as it was when the call asked;
* `resume_answer` — what a resume is answered, and what it appended;
* `resume_restores` — both of every run after an opening, and that nothing a
  caller appends changes what they are read from.
-/
import AgentBlock.Knl.Tree
import Mathlib.Data.List.Infix

namespace AgentBlock.Knl

open Interleaving

/-! ### Seqs are positions -/

/-- The seqs of every stream count its events from one. -/
def Numbered (db : Database) : Prop :=
  ∀ s, (db.stream s).map Current.seq = List.range' 1 (db.stream s).length

section Numbered

variable {db db' : Database} {s : String}

theorem numbered_nil : Numbered [] := fun _ => rfl

theorem Numbered.appendRow (h : Numbered db) (clock : Nat → Nat) (t : String) (event : Obj) :
    Numbered (appendRow clock db t event) := by
  intro s
  by_cases hs : t = s
  · subst hs
    rw [stream_appendRow_self, List.map_append, h t, List.length_append, List.length_singleton,
      List.range'_1_concat]
    simp [landed, Nat.add_comm]
  · rw [stream_appendRow_of_ne clock db t event hs]
    exact h s

theorem Numbered.sem {op : StoreOp} {a : op.Ans} (hs : Sem op db a db') (h : Numbered db) :
    Numbered db' :=
  hs.keeps (fun clock _ t event hn => hn.appendRow clock t event) h

/-- The head of a stream is how many events it has. -/
theorem Numbered.head (h : Numbered db) (s : String) :
    ((db.stream s).getLast?.map Current.seq).getD 0 = (db.stream s).length := by
  rw [← List.getLast?_map, h s, List.getLast?_range']
  split
  · simp [*]
  · simp

end Numbered

/-! ### The balance a handle keeps -/

/-- The balance a handle keeps is the fold of a log its stream had, at least as
long as the head the handle keeps. -/
def Cached (db : Database) (h : Session) : Prop :=
  ∃ log, log <+: db.stream h.store.stream ∧ h.balance.1 ≤ log.length ∧
    h.balance.2 = foldBalance log

section Cached

variable {db db' : Database} {h : Session}

theorem Cached.grows (hc : Cached db h) (hp : db <+: db') : Cached db' h := by
  obtain ⟨log, hlog, hlen, hb⟩ := hc
  exact ⟨log, hlog.trans (Database.stream_grows hp), hlen, hb⟩

/-- A handle that has folded nothing yet keeps the balance of the empty log. -/
theorem cached_fresh (hb : h.balance = (0, none)) : Cached db h :=
  ⟨[], ⟨_, rfl⟩, by simp [hb], by simp [hb]⟩

/-- A handle whose head has not moved keeps the fold of the stream. -/
theorem Cached.fold (hc : Cached db h)
    (hhead : (db.stream h.store.stream).length ≤ h.balance.1) :
    h.balance.2 = foldBalance (db.stream h.store.stream) := by
  obtain ⟨log, hlog, hlen, hb⟩ := hc
  rw [hb, hlog.eq_of_length_le (hhead.trans hlen)]

end Cached

section Remaining

variable {R : Database → Database → Prop} {db db' : Database} {done : Done} {h : Session}
variable {a : Answer}

/-- What the other calls may do: append, in the order of the seqs. -/
def Numbers (R : Database → Database → Prop) : Prop :=
  ∀ db db', R db db' → db <+: db' ∧ (Numbered db → Numbered db')

theorem Numbers.others (hR : Numbers R) (h : Others R db db') :
    db <+: db' ∧ (Numbered db → Numbered db') := by
  induction h with
  | refl => exact ⟨List.prefix_rfl, id⟩
  | tail _ hstep ih =>
      exact ⟨ih.1.trans (hR _ _ hstep).1, fun hn => (hR _ _ hstep).2 (ih.2 hn)⟩

/-- **What remains is the fold of the stream** as one of the call's own reads
found it, through any handle; and the handle it leaves keeps such a fold
again. -/
theorem remaining_eq_fold (hR : Numbers R) (hn : Numbered db) (hc : Cached db h)
    (hs : Returned R (body (.remaining h)) db done (.ok a) db') :
    ∃ h' b, a = .balance h' b ∧ Quiet done ∧ Cached db' h' ∧ ∃ d ∈ done,
      b = foldBalance (d.before.stream h.store.stream) := by
  rw [body_remaining] at hs
  obtain ⟨db₁, head, db₂, rest, rfl, hR₁, hsem, hans⟩ := returned_op hs
  obtain ⟨hp₁, hn₁⟩ := hR.others hR₁
  rcases head_cases hsem with ⟨e, -, rfl, rfl⟩ | ⟨rfl, rfl⟩
  · rcases hans with ⟨_, -, hr, -⟩ | ⟨reply, hreply, -⟩
    · cases hr
    · cases hreply
  rcases hans with ⟨_, hr, -⟩ | ⟨reply, hreply, hrest⟩
  · cases hr
  obtain rfl := Except.ok.inj hreply
  rw [(hn₁ hn).head] at hrest
  split at hrest
  · -- the head has not moved since the balance was kept
    obtain ⟨rfl, hr, hR₂⟩ := returned_ret hrest
    cases hr
    have hp₂ := (hR.others hR₂).1
    exact ⟨_, _, rfl, by simp, hc.grows (hp₁.trans hp₂), _, List.mem_cons_self,
      (hc.grows hp₁).fold ‹_›⟩
  · rcases returned_read hrest with ⟨e, -, hr, -⟩ | ⟨d, rest, rfl, hd, hR₂, hrest⟩
    · cases hr
    obtain ⟨rfl, hr, hR₃⟩ := returned_ret hrest
    cases hr
    have hp₂ := (hR.others hR₂).1
    have hp₃ := (hR.others hR₃).1
    refine ⟨_, _, rfl, by simp [hd], ⟨_, Database.stream_grows hp₃, ?_, ?_⟩, d,
      List.mem_cons_of_mem _ List.mem_cons_self, foldBalance_budgetKinds _⟩
    · exact (Database.stream_grows hp₂).length_le
    · exact foldBalance_budgetKinds _

end Remaining

/-! ### What a resume answers -/

/-- A log starts with an opening under an owner and a scope. -/
def OpensWith (events : List Current) (owner scopeId : String) : Prop :=
  ∃ opened parent rest, events = opened :: rest ∧ Opening opened owner scopeId parent

/-- The amount and the tag of the last grant of a log. -/
def lastGranted (log : List Current) : Option (I64 × Option String) :=
  (log.filter fun e => e.kind = KIND_BUDGET_GRANTED).getLast?.map fun e =>
    (amountOf e, stringField e FIELD_TAG)

/-- A session is the one a log describes: its owner and its scope are those of
the opening, and its grant is the last one of the log. -/
structure Describes (log : List Current) (owner scopeId : String) (h : Session) : Prop where
  owner : h.scope.owner = owner
  scope : h.scope.id = scopeId
  grant : h.scope.grant.map (fun g => (g.amount, g.tag)) = lastGranted log

/-- **What a resume is answered** on a stream that was opened, by what its own
operations found there. -/
inductive Resumed (s owner scopeId : String) (db' : Database) :
    Done → Option BudgetGrant → Except KnlError Answer → Prop
  | failed {done : Done} {grant : Option BudgetGrant} {e : KnlError} :
      e.isFault = true → Quiet done → Resumed s owner scopeId db' done grant (.error e)
  | ended {done : Done} {grant : Option BudgetGrant} {why : String}
      {asked : Performed Database StoreOp StoreOp.Ans} :
      asked ∈ done → Ended (asked.before.stream s) → Quiet done →
      Resumed s owner scopeId db' done grant (.error (.closed why))
  | restored {h : Session} {read asked : Performed Database StoreOp StoreOp.Ans} :
      ¬ Ended (asked.before.stream s) → Quiet [read, asked] →
      Describes (read.before.stream s) owner scopeId h → Cached db' h →
      Resumed s owner scopeId db' [read, asked] none (.ok (.session h))
  | negative {g : BudgetGrant} {why : String}
      {read asked : Performed Database StoreOp StoreOp.Ans} :
      ¬ Ended (asked.before.stream s) → g.amount.val < 0 → Quiet [read, asked] →
      Resumed s owner scopeId db' [read, asked] (some g) (.error (.validation why))
  | ungranted {g : BudgetGrant} {why : String}
      {read asked decided : Performed Database StoreOp StoreOp.Ans} :
      ¬ Ended (asked.before.stream s) → 0 ≤ g.amount.val →
      ¬ Granted (decided.before.stream s) → Quiet [read, asked, decided] →
      Resumed s owner scopeId db' [read, asked, decided] (some g) (.error (.validation why))
  | granted {g : BudgetGrant} {h : Session} {ev : Current}
      {read asked decided : Performed Database StoreOp StoreOp.Ans} :
      ¬ Ended (asked.before.stream s) → 0 ≤ g.amount.val →
      Granted (decided.before.stream s) → Quiet [read, asked] →
      decided.after = decided.before ++ [⟨s, ev⟩] → Grants ev g →
      Describes (decided.after.stream s) owner scopeId h → Cached db' h →
      Resumed s owner scopeId db' [read, asked, decided] (some g) (.ok (.session h))

section Resume

variable {R : Database → Database → Prop} {db db' : Database} {done : Done}
variable {m : Minted} {grant : Option BudgetGrant} {store : Store} {r : Except KnlError Answer}
variable {owner scopeId : String}

theorem lastGrant_map (log : List Current) :
    (lastGrant log).map (fun g => (g.amount, g.tag)) = lastGranted log := by
  unfold lastGrant lastGranted
  rw [← List.head?_reverse, ← List.filter_reverse, List.head?_filter, Option.map_map]
  rfl

theorem lastGranted_concat {log : List Current} {ev : Current} {g : BudgetGrant}
    (hn : 0 ≤ g.amount.val) (hg : Grants ev g) :
    lastGranted (log ++ [ev]) = some (g.amount, g.tag) := by
  have hk := kind_of_view hg.1
  have ha := amount_of_view hg.1
  have hamount : amountOf ev = g.amount := (amountOf_of_nonneg (by rw [ha]; exact hn)).trans ha
  have htag : stringField ev "tag" = g.tag := hg.2
  simp [lastGranted, hk, hamount, htag]

theorem OpensWith.find (ho : OpensWith (db.stream store.stream) owner scopeId)
    (hp : db <+: db') : ∃ opened parent,
      ((db'.stream store.stream).find? fun e => e.kind = KIND_SESSION_OPENED) = some opened ∧
      Opening opened owner scopeId parent := by
  obtain ⟨opened, parent, rest, heq, hopening⟩ := ho
  obtain ⟨more, hmore⟩ := Database.stream_grows (s := store.stream) hp
  have hk := kind_of_view hopening.1
  refine ⟨opened, parent, ?_, hopening⟩
  rw [← hmore, heq]
  simp [hk]

/-- The session a log describes is restored from it. -/
theorem restored_describes {opened : Current} {parent : Option String}
    (ho : Opening opened owner scopeId parent) (log : List Current) :
    Describes log owner scopeId (Session.restored m opened log store) where
  owner := by simp [Session.restored, show stringField opened "owner" = some owner from ho.2.1]
  scope := by
    simp [Session.restored, show stringField opened "scope_id" = some scopeId from ho.2.2]
  grant := lastGrant_map log

theorem restored_cached {opened : Current} (hn : Numbered db) (hp : db <+: db') :
    Cached db' (Session.restored m opened (db.stream store.stream) store) :=
  ⟨db.stream store.stream, Database.stream_grows hp, (hn.head _).le, rfl⟩

/-- **What a resume is answered**, on a stream that was opened. -/
theorem resume_answer (hR : Numbers R) (hn : Numbered db)
    (ho : OpensWith (db.stream store.stream) owner scopeId)
    (hs : Returned R (body (.resume m grant store)) db done r db') :
    Resumed store.stream owner scopeId db' done grant r := by
  have hbetween := (seen_grows (fun _ _ h => (hR _ _ h).1) hs).2
  rcases resume_seen hs with ⟨e, rfl, hf, hq⟩ |
    ⟨opened, read, asked, rest, rfl, ⟨hq, hR₁, hR₂, hfind, hend⟩, hrest⟩
  · cases hf with
    | failed he => exact .failed he hq
    | noSession hmem hno =>
        -- the opening is in the log from the start
        obtain ⟨opened, parent, hfind, -⟩ := ho.find (hbetween _ hmem).1
        rw [hfind] at hno
        cases hno
    | ended hmem hend => exact .ended hmem hend hq
  obtain ⟨hp₁, hn₁⟩ := hR.others hR₁
  obtain ⟨opened', parent, hfind', hopening⟩ := ho.find hp₁
  obtain rfl := Option.some.inj (hfind.symm.trans hfind')
  have hread := hbetween read List.mem_cons_self
  have hdesc := @restored_describes m store owner scopeId opened parent hopening
    (read.before.stream store.stream)
  have hcached : Cached db' (Session.restored m opened (read.before.stream store.stream) store) :=
    restored_cached (hn₁ hn) (hread.2.1.trans hread.2.2)
  cases grant with
  | none =>
      obtain ⟨rfl, rfl, -⟩ := returned_ret hrest
      exact .restored hend hq hdesc hcached
  | some g =>
      rcases grantOnResume_seen hrest with ⟨hneg, rfl, e, hv, rfl⟩ |
        ⟨hg, decided, a, after, rfl, -, hsem, rfl⟩
      · obtain ⟨why, rfl⟩ := KnlError.eq_validation hv
        exact .negative hend hneg hq
      simp only [quiet_cons] at hq
      rcases resumeGrant_cases hsem with ⟨e, he, rfl, rfl⟩ | ⟨hno, rfl, rfl⟩ |
        ⟨ev, c, hgr, hv, ht, rfl, rfl⟩
      · exact .failed he (by simp [hq.1, hq.2.1])
      · exact .ungranted hend hg hno (by simp [hq.1, hq.2.1])
      · refine .granted hend hg hgr (by simp [hq.1, hq.2.1]) rfl ⟨hv, ht⟩
          ⟨hdesc.owner, hdesc.scope, ?_⟩ hcached
        have hlast := @lastGranted_concat (decided.stream store.stream) _ _ hg ⟨hv, ht⟩
        simpa [Session.restored] using hlast.symm

end Resume

/-! ### The handles that are handed out -/

/-- The handle an answer hands out. -/
def Answer.handle : Answer → Option Session
  | .session h | .balance h _ => some h
  | .allowed _ | .seq _ | .done => none

section Handles

variable {R : Database → Database → Prop} {db db' : Database} {done : Done} {h h' : Session}

theorem Cached.same (hc : Cached db h) (hs : h'.store.stream = h.store.stream)
    (hb : h'.balance = h.balance) : Cached db h' := by
  unfold Cached at hc ⊢
  rwa [hs, hb]

theorem grantOnResume_cached {g : BudgetGrant} {a : Answer} (hc : Cached db' h)
    (hs : Returned R (body (.grantOnResume h g)) db done (.ok a) db') :
    ∀ h' ∈ a.handle, Cached db' h' := by
  rcases grantOnResume_seen hs with ⟨-, -, e, -, hr⟩ | ⟨-, db₁, reply, db₂, -, -, -, hr⟩
  · cases hr
  · cases reply with
    | error e => cases hr
    | ok reply =>
        simp only [resumeGrantAnswer] at hr
        split at hr
        · cases hr
        · cases hr
          rintro h' ⟨⟩
          exact hc.same rfl rfl

/-- A call that returns with its one operation, and no handle. -/
theorem no_handle_op {op : StoreOp} {f : op.Reply → Answer} {a : Answer}
    (hf : ∀ reply, (f reply).handle = none)
    (hs : Returned R (.op op (onReply fun reply => .ret (.ok (f reply)))) db done (.ok a) db') :
    ∀ h' ∈ a.handle, Cached db' h' := by
  obtain ⟨_, _, _, _, -, -, -, ⟨_, -, hr, -⟩ | ⟨reply, -, hrest⟩⟩ := returned_op hs
  · cases hr
  · obtain ⟨-, hr, -⟩ := returned_ret hrest
    obtain rfl := Except.ok.inj hr
    rw [hf reply]
    rintro h' ⟨⟩

/-- A child's handle keeps a balance of the child's stream. -/
theorem openChild_cached (hR : Numbers R) (hn : Numbered db) {h : Session} {m : Minted}
    {childScope childStream owner : String} {allocation : Allocation} {labels : Option Obj}
    {childStore : Store} {a : Answer}
    (hs : Returned R (body (.openChild h m childScope childStream owner allocation labels
      childStore)) db done (.ok a) db') :
    ∀ h' ∈ a.handle, Cached db' h' := by
  obtain ⟨hopen, hamount, hdb⟩ := openChild_answered hs
  obtain ⟨d, rest, rfl, -, hR₁, hsem, hall⟩ := openChild_seen hopen hamount hdb hs
  cases hall with
  | opened _ _ hall hre =>
      have hbetween := (seen_grows (fun _ _ h => (hR _ _ h).1) hre).2
      obtain ⟨-, ⟨e, hr, -⟩ | ⟨opened, read, asked, rfl, hread, hr⟩⟩ := reopen_seen hre
      · cases hr
      · cases hr
        rintro h' ⟨⟩
        have hread' := hbetween read List.mem_cons_self
        have hn₂ : Numbered d.after := ((hR.others hR₁).2 hn).sem hsem
        have hcached := @restored_cached read.before db' m childStore opened
          ((hR.others hread.first).2 hn₂) (hread'.2.1.trans hread'.2.2)
        exact hcached.same rfl rfl

/-- **Every handle a call hands out keeps a balance of its stream.** -/
theorem answer_cached (hR : Numbers R) (hn : Numbered db) {c : Call} {a : Answer}
    (hc : ∀ h ∈ c.handle, Cached db h) (hs : Returned R (body c) db done (.ok a) db') :
    ∀ h' ∈ a.handle, Cached db' h' := by
  have hp := (seen_grows (fun _ _ h => (hR _ _ h).1) hs).1
  cases c with
  | openOn m owner grant labels store =>
      rw [body_openOn] at hs
      obtain ⟨_, _, _, _, -, -, -, ⟨_, -, hr, -⟩ | ⟨reply, -, hrest⟩⟩ := returned_op hs
      · cases hr
      · cases (returned_ret hrest).2.1
        rintro h' ⟨⟩
        -- a handle that is opened has read nothing yet, so it keeps no balance
        exact cached_fresh rfl
  | resume m grant store =>
      have hbetween := (seen_grows (fun _ _ h => (hR _ _ h).1) hs).2
      rcases resume_seen hs with ⟨e, hr, -⟩ | ⟨opened, read, asked, rest, rfl, hread, hrest⟩
      · cases hr
      · have hread' := hbetween read List.mem_cons_self
        -- the balance is the one of the log the resume read, which has only grown
        have hcached := @restored_cached read.before db' m store opened
          ((hR.others hread.first).2 hn) (hread'.2.1.trans hread'.2.2)
        cases grant with
        | none =>
            cases (returned_ret hrest).2.1
            rintro h' ⟨⟩
            exact hcached
        | some g => exact grantOnResume_cached hcached hrest
  | grantOnResume h g => exact grantOnResume_cached ((hc h rfl).grows hp) hs
  | grantMore h g =>
      cases hopen : h.closed with
      | true =>
          rw [body_grantMore, if_pos hopen] at hs
          cases (returned_ret hs).2.1
      | false =>
          obtain ⟨_, _, _, -, -, -, ⟨_, -, hr⟩ | ⟨_, -, ⟨-, _, -, hr⟩ | ⟨-, hr⟩⟩⟩ :=
            grantMore_seen hopen hs
          · cases hr
          · cases hr
          · cases hr
            rintro h' ⟨⟩
            exact ((hc h rfl).grows hp).same rfl rfl
  | openChild h m childScope childStream owner allocation labels childStore =>
      exact openChild_cached hR hn hs
  | append h event =>
      rw [body_append] at hs
      split at hs
      · cases (returned_ret hs).2.1
      · split at hs
        · cases (returned_ret hs).2.1
        · exact no_handle_op (fun _ => rfl) hs
  | reserve h n =>
      rw [body_reserve] at hs
      split at hs
      · cases (returned_ret hs).2.1
      · split at hs
        · cases (returned_ret hs).2.1
        · exact no_handle_op (fun _ => rfl) hs
  | spend h n =>
      rw [body_spend] at hs
      split at hs
      · cases (returned_ret hs).2.1
      · split at hs
        · cases (returned_ret hs).2.1
        · exact no_handle_op (fun _ => rfl) hs
  | remaining h =>
      obtain ⟨h', b, rfl, -, hcached, -⟩ := remaining_eq_fold hR hn (hc h rfl) hs
      rintro h'' ⟨⟩
      exact hcached
  | closeWith h reason detail =>
      have hcached := (hc h rfl).grows hp
      rw [body_closeWith] at hs
      split at hs
      · cases (returned_ret hs).2.1
        rintro h' ⟨⟩
        exact hcached
      · obtain ⟨_, _, _, _, -, -, -, ⟨_, -, hr, -⟩ | ⟨reply, -, hrest⟩⟩ := returned_op hs
        · cases hr
        · cases (returned_ret hrest).2.1
          rintro h' ⟨⟩
          exact hcached.same rfl rfl
  | closeDetached h reason =>
      have hcached := (hc h rfl).grows hp
      rw [body_closeDetached] at hs
      split at hs
      · cases (returned_ret hs).2.1
        rintro h' ⟨⟩
        exact hcached
      · rcases Prog.Seen.of_op hs with ⟨-, hq, -⟩ | ⟨_, _, _, _, -, -, -, hrest⟩
        · cases hq
        · cases (returned_ret hrest).2.1
          rintro h' ⟨⟩
          exact hcached.same rfl rfl

end Handles

/-! ### What a caller appends -/

/-- Two logs say the same to a resume and to what remains: the same opening,
the same ending, the same last grant and the same balance. -/
structure SameReadings (log log' : List Current) : Prop where
  opening : (log'.find? fun e => e.kind = KIND_SESSION_OPENED) =
    log.find? fun e => e.kind = KIND_SESSION_OPENED
  ended : Ended log' ↔ Ended log
  granted : lastGranted log' = lastGranted log
  balance : foldBalance log' = foldBalance log

/-- An event of the caller's leaves every reading as it is. -/
theorem sameReadings_concat {log : List Current} {e : Current}
    (hk : isKernelOnly e.kind = false) : SameReadings log (log ++ [e]) := by
  have hne : ∀ kind, isKernelOnly kind = true → e.kind ≠ kind := by
    rintro kind hkind rfl
    rw [hk] at hkind
    cases hkind
  have ho := hne KIND_SESSION_OPENED (by decide)
  have hc := hne KIND_SESSION_CLOSED (by decide)
  have hg := hne KIND_BUDGET_GRANTED (by decide)
  refine ⟨?_, ?_, ?_, ?_⟩
  · rw [List.find?_append, List.find?_singleton, if_neg (by simpa using ho), Option.or_none]
  · rw [ended_append, ended_singleton]
    exact or_iff_left hc
  · simp only [KIND_BUDGET_GRANTED] at hg ⊢
    simp [lastGranted, hg]
  · rw [foldBalance_concat, foldStep_other (not_budget_of_not_kernelOnly hk)]

/-- A stream that was granted nothing stays so, unless a call grants on it
that does not look first. -/
theorem not_granted_change {c : Call} {db db' : Database} {s : String}
    (hno : c.stream = s → c.grant ≠ none → c.regrants = true) (hc : Change c db db')
    (h : db.stream s ≠ [] ∧ ¬ Granted (db.stream s)) :
    db'.stream s ≠ [] ∧ ¬ Granted (db'.stream s) := by
  obtain ⟨hne, hng⟩ := h
  have hrow : ∀ {db : Database} {t : String} {e : Current}, ¬ Granted (db.stream s) →
      (t = s → e.kind ≠ KIND_BUDGET_GRANTED) →
      ¬ Granted (Database.stream (db ++ [⟨t, e⟩]) s) := by
    rintro db t e hng he ⟨g, hg, hk⟩
    rw [stream_concat] at hg
    rcases List.mem_append.mp hg with hg | hg
    · exact hng ⟨g, hg, hk⟩
    · split at hg
      · obtain rfl := List.mem_singleton.mp hg
        exact he ‹_› hk
      · cases hg
  refine ⟨fun hnil => hne (List.prefix_nil.mp (hnil ▸ Database.stream_grows hc.grows)), ?_⟩
  cases hc with
  | none => exact hng
  | @opened m owner grant labels store db ev gv hm ho hg =>
      have h₁ := hrow (t := store.stream) hng fun _ => by rw [kind_of_view ho.1]; simp
      refine opened_rows (I := fun db => ¬ Granted (db.stream s)) hg h₁ fun g e hgr hv =>
        hrow h₁ fun hs => ?_
      -- an opening with a grant is not a call that looks first
      exact absurd (hno hs (by simp [Call.grant, hgr])) (by simp [Call.regrants])
  | granted hg hr _ hv =>
      -- one that looks first found the stream granted already
      exact hrow hng fun hs => absurd (hr (hno hs (by simp [hg]))) (hs ▸ hng)
  | noted hk =>
      refine hrow hng fun _ hg => ?_
      rw [hg] at hk
      exact absurd hk (by decide)
  | reserved _ _ _ hv | spent _ _ hv => exact hrow hng fun _ => by rw [kind_of_view hv]; simp
  | refused _ _ _ _ hv => exact hrow hng fun _ => by rw [kind_of_view hv]; simp
  | @allocated hd m childScope childStream owner allocation labels childStore db db' hn hcov hall =>
      have h₁ := hrow (t := hd.store.stream) (e := hall.own) hng
        fun _ => by rw [kind_of_view hall.own_view]; simp
      have h₂ := hrow (t := childStream) (e := hall.opened) h₁
        fun _ => by rw [kind_of_view hall.opening.1]; simp
      have h₃ := hrow (t := childStream) (e := hall.granted) h₂
        fun hs => absurd hcov.1 (by rw [← hs] at hne; exact hne)
      rw [hall.rows]
      simpa using h₃
  | closed hv | closedDetached hv => exact hrow hng fun _ => by rw [kind_of_view hv]; simp

/-! ### Runs -/

/-- The calls that may be made on handles that were handed out: live, and
keeping a balance of their stream. -/
def Held (calls : Call → Prop) (db : Database) (c : Call) : Prop :=
  Made calls db c ∧ ∀ h ∈ c.handle, Cached db h

/-- The pools such calls can reach. -/
def ReachesHeld (calls : Call → Prop) (db₀ : Database) (p : KnlPool) : Prop :=
  Pool.Runs Sem body (Held calls) (Pool.start db₀) p

section Runs

variable {calls : Call → Prop} {db₀ : Database} {p : KnlPool} {s owner scopeId : String}

theorem held_governed (calls : Call → Prop) : Pool.Governed Sem body (Held calls) Issues where
  all := body_issues
  persists := fun _ _ _ _ _ hc hsem =>
    ⟨⟨hc.1.1.grows hsem.appends, hc.1.2⟩, fun h hh => (hc.2 h hh).grows hsem.appends⟩

theorem held_numbers (calls : Call → Prop) : Numbers (Env Sem (Held calls) Issues) := by
  rintro db db' ⟨c, op, a, -, -, hsem⟩
  exact ⟨hsem.appends, fun hn => hn.sem hsem⟩

/-- A call that has returned took a path of its program, from a database the
run had reached and on a handle that was handed out. -/
theorem ReachesHeld.returned (hn : Numbered db₀) (hrun : ReachesHeld calls db₀ p)
    {t : CallThread} (ht : t ∈ p.threads) {r : Except KnlError Answer} (hr : t.rest = .ret r) :
    ∃ db, db₀ <+: db ∧ Numbered db ∧ (∀ h ∈ t.call.handle, Cached db h) ∧
      Returned (Env Sem (Held calls) Issues) (body t.call) db t.done r p.shared := by
  obtain ⟨db, hdb, hc, hs⟩ := Pool.thread_view (held_governed calls) hrun t ht
  obtain ⟨hp, hn'⟩ := (held_numbers calls).others hdb
  rw [hr] at hs
  exact ⟨db, hp, hn' hn, hc.2, hs⟩

theorem Reaches.numbered {calls₀ : Call → Prop} {p₀ : KnlPool} (h : Reaches calls₀ [] p₀) :
    Numbered p₀.shared := by
  refine Pool.inv (made_governed calls₀) (fun db db' hm hn => ?_) numbered_nil h
  obtain ⟨c, op, a, -, -, hsem⟩ := hm
  exact hn.sem hsem

theorem OpensWith.grows {log log' : List Current} (h : OpensWith log owner scopeId)
    (hp : log <+: log') : OpensWith log' owner scopeId := by
  obtain ⟨opened, parent, rest, rfl, ho⟩ := h
  obtain ⟨more, rfl⟩ := hp
  exact ⟨opened, parent, rest ++ more, rfl, ho⟩

/-- **Resume restores what was opened.**  From any database the calls have
written, in which `s` starts with an opening, and whatever calls are made from
there: each resume of `s` is answered by what its own operations found; what
remains is the fold of the stream, through any handle; handles that are handed
out keep such a fold; nothing a caller appends changes what these are read
from; and resumes alone never give a stream its first grant. -/
theorem resume_restores {calls₀ : Call → Prop} {p₀ : KnlPool} (h₀ : Reaches calls₀ [] p₀)
    (ho : OpensWith (p₀.shared.stream s) owner scopeId)
    (hrun : ReachesHeld calls p₀.shared p) :
    (∀ t ∈ p.threads, ∀ m grant store r, t.call = .resume m grant store → store.stream = s →
      t.rest = .ret r → Resumed s owner scopeId p.shared t.done grant r) ∧
    (∀ t ∈ p.threads, ∀ h a, t.call = .remaining h → t.rest = .ret (.ok a) →
      ∃ h' b, a = .balance h' b ∧ Quiet t.done ∧
        ∃ d ∈ t.done, b = foldBalance (d.before.stream h.store.stream)) ∧
    (∀ t ∈ p.threads, ∀ a, t.rest = .ret (.ok a) → ∀ h ∈ a.handle, Cached p.shared h) ∧
    (∀ t ∈ p.threads, ∀ h event, t.call = .append h event → ∀ d ∈ t.done, ∀ s,
      SameReadings (d.before.stream s) (d.after.stream s)) ∧
    ((∀ c, calls c → c.stream = s → c.grant ≠ none → c.regrants = true) →
      ¬ Granted (p₀.shared.stream s) → ¬ Granted (p.shared.stream s)) := by
  have hn := h₀.numbered
  refine ⟨?_, ?_, ?_, ?_, ?_⟩
  · rintro t ht m grant store r hcall rfl hr
    obtain ⟨db, hp, hn', -, hs⟩ := hrun.returned hn ht hr
    rw [hcall] at hs
    exact resume_answer (held_numbers calls) hn' (ho.grows (Database.stream_grows hp)) hs
  · intro t ht h a hcall hr
    obtain ⟨db, hp, hn', hc, hs⟩ := hrun.returned hn ht hr
    rw [hcall] at hs hc
    obtain ⟨h', b, rfl, hq, -, hd⟩ := remaining_eq_fold (held_numbers calls) hn' (hc h rfl) hs
    exact ⟨h', b, rfl, hq, hd⟩
  · intro t ht a hr
    obtain ⟨db, hp, hn', hc, hs⟩ := hrun.returned hn ht hr
    exact answer_cached (held_numbers calls) hn' hc hs
  · intro t ht h event hcall d hd s
    obtain ⟨-, -, hi, hsem⟩ := Pool.performed (held_governed calls) hrun t ht d hd
    rw [hcall] at hi
    have hch := change_of_sem hi hsem
    generalize d.after = db' at hch
    cases hch with
    | none => exact ⟨rfl, Iff.rfl, rfl, rfl⟩
    | granted hg => cases hg
    | refused hm => cases hm
    | noted hk =>
        rw [stream_concat]
        split
        · exact sameReadings_concat hk
        · rw [List.append_nil]
          exact ⟨rfl, Iff.rfl, rfl, rfl⟩
  · intro hcalls hng
    have hne : p₀.shared.stream s ≠ [] := by
      obtain ⟨opened, parent, rest, heq, -⟩ := ho
      simp [heq]
    refine (Pool.inv (held_governed calls) (I := fun db => db.stream s ≠ [] ∧
      ¬ Granted (db.stream s)) (fun db db' hm h => ?_) ⟨hne, hng⟩ hrun).2
    obtain ⟨c, op, a, hc, hi, hsem⟩ := hm
    exact not_granted_change (hcalls c hc.1.2) (change_of_sem hi hsem) h

end Runs

/-- A resume of the root with five units. -/
def resumeFive : Call := .resume ⟨"id", "minted"⟩ (some ⟨5, none, none⟩) ⟨some "db", "root"⟩

/-- Two resumes race to grant on a stream that opened without a budget, and
neither gives it one. -/
theorem resume_restores_race :
    ∃ p, ReachesHeld (· = resumeFive)
        (appendRow still [] "root" (openedEvent "owner" "scope" none)) p ∧
      p.threads.length = 2 ∧ (p.shared.stream "root").length = 1 ∧
      ¬ Granted (p.shared.stream "root") :=
  have h₀ : Playable (works still) (fun _ => True)
      [.call (.openOn ⟨"root", "scope"⟩ "owner" none none ⟨some "db", "root"⟩), .perform 0] [] :=
    ⟨⟨by decide, trivial⟩, trivial⟩
  have h : Pool.TurnsAllowed (works still) body (Held (· = resumeFive))
      [.call resumeFive, .call resumeFive, .perform 0, .perform 1, .perform 1, .perform 0,
        .perform 0, .perform 1]
      (Pool.start (appendRow still [] "root" (openedEvent "owner" "scope" none))) :=
    ⟨⟨⟨by decide, rfl⟩, fun _ hh => by cases hh⟩, ⟨⟨by decide, rfl⟩, fun _ hh => by cases hh⟩,
      trivial⟩
  have hrun := Pool.runs_turns (fun op db => Sem.done still op db) h
  have ho : OpensWith (Database.stream (appendRow still [] "root"
      (openedEvent "owner" "scope" none)) "root") "owner" "scope" :=
    ⟨_, none, [], rfl, view_opened .., scope_opened ..⟩
  ⟨_, hrun, rfl, rfl, (resume_restores (reaches_played h₀) ho hrun).2.2.2.2
    (fun c hc _ _ => by subst hc; rfl) (by decide)⟩

/-- A resume with a refund: nothing has ended the stream, and the resume is not
answered with a session. -/
theorem resume_may_fail_on_an_open_stream :
    ∃ p, Reaches (fun _ => True) [] p ∧ ∃ t ∈ p.threads,
      t.call = .resume ⟨"id", "minted"⟩ (some refund) ⟨some "db", "root"⟩ ∧
      (∃ why, t.rest = .ret (.error (.validation why))) ∧
      Granted (p.shared.stream "root") ∧ ¬ Ended (p.shared.stream "root") :=
  have h : Playable (works still) (fun _ => True) [.call openRoot, .perform 0,
      .call (.resume ⟨"id", "minted"⟩ (some refund) ⟨some "db", "root"⟩), .perform 1,
      .perform 1] [] :=
    ⟨⟨by decide, trivial⟩, ⟨by decide, trivial⟩, trivial⟩
  ⟨_, reaches_played h, _, List.mem_cons_of_mem _ List.mem_cons_self, rfl, ⟨_, rfl⟩, by decide,
    by decide⟩

end AgentBlock.Knl
