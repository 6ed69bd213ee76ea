/-
AgentBlock/Knl/Amounts.lean

Negative amounts.

Every call that takes an amount fails on a negative one, but not every call
looks at it before it writes: an opening does not look at all, and a later
grant looks once the event is recorded.  `Call.GrantOk` is the condition on
those two under which no negative amount is recorded, and it is exact.

Main results:

* `amounts_in_order` — under the condition every ledger entry of every
  reachable log is non-negative and a call that fails left nothing; outside
  it some run records a negative amount;
* `grant_more_records_a_negative` — a grant that was refused and recorded.
-/
import AgentBlock.Knl.Conservation

namespace AgentBlock.Knl

open Interleaving

/-! ### Calls that fail -/

/-- A call is handed a negative amount. -/
def Call.Negative (c : Call) : Prop :=
  (∃ g ∈ c.grant, g.amount.val < 0) ∨ ∃ n ∈ c.moves, n.val < 0

/-- Why a call with a negative amount failed: an argument was wrong; or it did
not come to the check, because its handle was closed, the stream it resumes
was ended, or the store failed before. -/
def FailedFor (db : Database) (c : Call) (e : KnlError) : Prop :=
  e.isValidation = true ∨
    (e.isClosed = true ∧ ((∃ h ∈ c.handle, h.closed = true) ∨ Ended (db.stream c.stream))) ∨
    (e.isFault = true ∧ c.handle = none)

/-- What a call with an amount left behind when it returned: a negative amount
fails it with nothing written, and a grant that fails is not in the log. -/
def KeepsLog (db : Database) (t : CallThread) : Prop :=
  ∀ r, t.rest = .ret r →
    (t.call.Negative → Quiet t.done ∧ ∃ e, r = .error e ∧ FailedFor db t.call e) ∧
    (∀ g e, t.call.grant = some g → r = .error e → Quiet t.done)

section Returned

variable {calls : Call → Prop} {db db' : Database} {done : Done} {r : Except KnlError Answer}

/-- A negative amount to move fails before the store is asked. -/
theorem negative_moves_seen {c : Call} (hn : ∃ n ∈ c.moves, n.val < 0)
    (hs : Returned (Moves calls) (body c) db done r db') :
    done = [] ∧ ∃ e, r = .error e ∧ FailedFor db' c e := by
  obtain ⟨n, hmem, hlt⟩ := hn
  obtain ⟨e, he, hv⟩ := checkAmount_error hlt
  cases c with
  | reserve h n' | spend h n' =>
      cases hmem
      first | rw [body_reserve] at hs | rw [body_spend] at hs
      split at hs
      · obtain ⟨hd, hr, -⟩ := returned_ret hs
        exact ⟨hd, _, hr, Or.inr (Or.inl ⟨rfl, Or.inl ⟨h, rfl, ‹_›⟩⟩)⟩
      · rw [he] at hs
        obtain ⟨hd, hr, -⟩ := returned_ret hs
        exact ⟨hd, e, hr, Or.inl hv⟩
  | openChild h m childScope childStream owner allocation labels childStore =>
      cases hmem
      rw [body_openChild] at hs
      split at hs
      · obtain ⟨hd, hr, -⟩ := returned_ret hs
        exact ⟨hd, _, hr, Or.inr (Or.inl ⟨rfl, Or.inl ⟨h, rfl, ‹_›⟩⟩)⟩
      · rw [he] at hs
        obtain ⟨hd, hr, -⟩ := returned_ret hs
        exact ⟨hd, e, hr, Or.inl hv⟩
  | _ => cases hmem

theorem grantOnResume_error {h : Session} {grant : BudgetGrant} {e : KnlError}
    (hs : Returned (Moves calls) (body (.grantOnResume h grant)) db done (.error e) db') :
    Quiet done := by
  rcases grantOnResume_seen hs with ⟨-, rfl, -⟩ | ⟨-, db₁, a, db₂, rfl, -, hsem, hr⟩
  · exact quiet_nil
  · rcases resumeGrant_cases hsem with ⟨e', -, rfl, rfl⟩ | ⟨-, rfl, rfl⟩ |
      ⟨ev, c, -, -, -, rfl, rfl⟩
    · simp
    · simp
    · cases hr

/-- A grant in order that fails is not recorded. -/
theorem grant_error {c : Call} (hg : c.grant ≠ none) (hok : c.GrantOk) {e : KnlError}
    (hs : Returned (Moves calls) (body c) db done (.error e) db') : Quiet done := by
  cases c with
  | openOn m owner grant labels store =>
      rw [body_openOn] at hs
      obtain ⟨db₁, a, db₂, rest, rfl, -, hsem, hans⟩ := returned_op hs
      rcases hans with ⟨e', rfl, -, rfl, -⟩ | ⟨reply, -, hrest⟩
      · rcases open_cases hsem with ⟨e, -, -, rfl⟩ | ⟨e, -, -, rfl⟩ | ⟨ev, c, gv, -, -, -, ha, -⟩
        · simp
        · simp
        · cases ha
      · cases (returned_ret hrest).2.1
  | resume m grant store =>
      rcases resume_seen hs with ⟨e', -, -, hq⟩ |
        ⟨opened, read, asked, rest, rfl, hread, hrest⟩
      · exact hq
      · cases grant with
        | none => cases (returned_ret hrest).2.1
        | some g =>
            have hrest := grantOnResume_error hrest
            have hq := hread.quiet
            simp only [quiet_cons] at hq ⊢
            exact ⟨hq.1, hq.2.1, hrest⟩
  | grantOnResume h grant => exact grantOnResume_error hs
  | grantMore h grant =>
      cases hopen : h.closed with
      | true =>
          rw [body_grantMore, if_pos hopen] at hs
          rw [(returned_ret hs).1]
          exact quiet_nil
      | false =>
          have hn := hok.resolve_right (by simp [hopen])
          obtain ⟨db₁, a, db₂, rfl, -, hsem, ⟨e', rfl, -⟩ | ⟨c, -, ⟨hneg, -⟩ | ⟨-, hr⟩⟩⟩ :=
            grantMore_seen hopen hs
          · rcases grant_cases hsem with ⟨e, -, -, rfl⟩ | ⟨ev, c, -, -, ha, -⟩
            · simp
            · cases ha
          · omega
          · cases hr
  | _ => exact absurd rfl hg

theorem NotFound.failedFor {m : Minted} {grant : Option BudgetGrant} {store : Store}
    {e : KnlError} (hp : ∀ d ∈ done, d.before <+: db') (h : NotFound store done e) :
    FailedFor db' (.resume m grant store) e := by
  cases h with
  | failed he => exact Or.inr (Or.inr ⟨he, rfl⟩)
  | noSession => exact Or.inl rfl
  | ended hmem hend =>
      obtain ⟨ending, hin, hk⟩ := hend
      have hin' := (Database.stream_grows (hp _ hmem)).subset hin
      exact Or.inr (Or.inl ⟨rfl, Or.inr ⟨ending, hin', hk⟩⟩)

/-- A negative grant fails the call, wherever the call sees to it itself. -/
theorem negative_grant_seen {c : Call} (hn : ∃ g ∈ c.grant, g.amount.val < 0) (hok : c.GrantOk)
    (hs : Returned (Moves calls) (body c) db done r db') : ∃ e, r = .error e ∧ FailedFor db' c e := by
  obtain ⟨g, hmem, hlt⟩ := hn
  cases c with
  | openOn m owner grant labels store =>
      have hmeta := hok.resolve_left fun h => absurd (h g hmem) (by omega)
      rw [body_openOn] at hs
      obtain ⟨db₁, a, db₂, rest, rfl, -, hsem, hans⟩ := returned_op hs
      rcases open_cases hsem with ⟨e, he, rfl, -⟩ | ⟨e, hm, rfl, -⟩ | ⟨ev, c, gv, hm, -⟩
      · rcases hans with ⟨e', he', rfl, -⟩ | ⟨reply, hreply, -⟩
        · cases he'
          exact ⟨e, rfl, Or.inr (Or.inr ⟨he, rfl⟩)⟩
        · cases hreply
      · rcases hans with ⟨e', he', rfl, -⟩ | ⟨reply, hreply, -⟩
        · cases he'
          exact ⟨e, rfl, Or.inl (checkMeta_error hm)⟩
        · cases hreply
      · exact absurd hm hmeta
  | resume m grant store =>
      have hbetween := (seen_grows (fun _ _ => Moves.grows) hs).2
      rcases resume_seen hs with ⟨e, rfl, hf, -⟩ | ⟨opened, read, asked, rest, -, -, hrest⟩
      · exact ⟨e, rfl, hf.failedFor fun d hd =>
          (hbetween d hd).2.1.trans (hbetween d hd).2.2⟩
      · cases hmem
        rcases grantOnResume_seen hrest with ⟨-, -, e, hv, rfl⟩ | ⟨hnn, -⟩
        · exact ⟨e, rfl, Or.inl hv⟩
        · omega
  | grantOnResume h grant =>
      cases hmem
      rcases grantOnResume_seen hs with ⟨-, -, e, hv, rfl⟩ | ⟨hnn, -⟩
      · exact ⟨e, rfl, Or.inl hv⟩
      · omega
  | grantMore h grant =>
      cases hmem
      have hclosed := hok.resolve_left (by omega)
      rw [body_grantMore, if_pos hclosed] at hs
      obtain ⟨-, rfl, -⟩ := returned_ret hs
      exact ⟨_, rfl, Or.inr (Or.inl ⟨rfl, Or.inl ⟨h, rfl, hclosed⟩⟩)⟩
  | _ => cases hmem

end Returned

/-! ### Runs -/

section Runs

variable {calls : Call → Prop} {db₀ : Database} {p : KnlPool}

/-- The log and the calls of a pool are in order. -/
def InOrder (p : KnlPool) : Prop :=
  (∀ s, NonNegLedger (p.shared.stream s)) ∧ ∀ t ∈ p.threads, KeepsLog p.shared t

theorem Reaches.inOrder (h₀ : ∀ s, NonNegLedger (db₀.stream s))
    (hcalls : ∀ c, calls c → c.GrantOk) (hrun : Reaches calls db₀ p) : InOrder p := by
  refine ⟨fun s => hrun.inv (I := fun db => NonNegLedger (db.stream s))
    (fun c _ _ _ hc hch => nonNeg_change hch (hcalls c hc)) (h₀ s), fun t ht r hrest => ?_⟩
  obtain ⟨db, -, ⟨-, hc⟩, hs⟩ := hrun.returned ht hrest
  have hok := hcalls _ hc
  have hgrant : ∀ g e, t.call.grant = some g → r = .error e → Quiet t.done := by
    rintro g e hg rfl
    exact grant_error (by simp [hg]) hok hs
  refine ⟨fun hneg => ?_, hgrant⟩
  rcases hneg with hneg | hneg
  · obtain ⟨e, hr, hf⟩ := negative_grant_seen hneg hok hs
    obtain ⟨g, hg, -⟩ := hneg
    exact ⟨hgrant g e hg hr, e, hr, hf⟩
  · obtain ⟨hd, hr⟩ := negative_moves_seen hneg hs
    exact ⟨by rw [hd]; exact quiet_nil, hr⟩

theorem not_nonNegLedger {db : Database} {s scope : String} {g : BudgetGrant}
    (hn : g.amount.val < 0) :
    ¬ NonNegLedger ((appendRow still db s (grantedEvent g scope)).stream s) := by
  intro h
  have hv := view_granted still db s scope g
  have := h _ (by rw [stream_appendRow_self]; exact List.mem_append_right _ List.mem_cons_self)
    (by rw [kind_of_view hv]; simp [BUDGET_KINDS])
  rw [amount_of_view hv] at this
  exact absurd this (not_le.mpr hn)

/-- A call whose grant is not in order records a negative amount when it is
made on a store that works. -/
theorem records_negative {c : Call} (hc : calls c) (hlive : Live db₀ c) (hbad : ¬ c.GrantOk) :
    ∃ p, Reaches calls db₀ p ∧ ¬ NonNegLedger (p.shared.stream c.stream) := by
  refine ⟨played (works still) [.call c, .perform 0] db₀,
    reaches_played ⟨⟨hlive, hc⟩, trivial⟩, ?_⟩
  cases c with
  | openOn m owner grant labels store =>
      simp only [Call.GrantOk, not_or, not_not] at hbad
      obtain ⟨hneg, hmeta⟩ := hbad
      push Not at hneg
      obtain ⟨g, hg, hlt⟩ := hneg
      obtain rfl := Option.mem_def.mp hg
      have hx := exec_appendMany_ok still db₀ (s := store.stream)
        ((validateAll_opening owner m.scopeId (some g) labels).trans hmeta)
      rw [played_first (body_openOn m owner (some g) labels store), works, hx]
      exact not_nonNegLedger hlt
  | grantMore h grant =>
      simp only [Call.GrantOk, not_or, not_le, Bool.not_eq_true] at hbad
      obtain ⟨hlt, hopen⟩ := hbad
      have hbody := body_grantMore h grant
      rw [if_neg (by simp [hopen])] at hbody
      have hx : (exec still db₀ (.append h.store.stream (grantedEvent grant h.scope.id))).2 =
          appendRow still db₀ h.store.stream (grantedEvent grant h.scope.id) := by
        simp only [exec, validate_granted]
      rw [played_first hbody, works, hx]
      exact not_nonNegLedger hlt
  | _ => exact absurd trivial hbad

/-- **No negative amount is recorded, and a grant that fails leaves nothing**,
in every run of calls whose grants are in order; and no other calls that can be
made have that. -/
theorem amounts_in_order (calls : Call → Prop) (db₀ : Database)
    (h₀ : ∀ s, NonNegLedger (db₀.stream s)) :
    ((∀ c, calls c → c.GrantOk) → ∀ p, Reaches calls db₀ p → InOrder p) ∧
      ((∀ p, Reaches calls db₀ p → InOrder p) → ∀ c, calls c → Live db₀ c → c.GrantOk) := by
  refine ⟨fun hcalls p hrun => hrun.inOrder h₀ hcalls, fun hall c hc hlive => ?_⟩
  by_contra hbad
  obtain ⟨p, hrun, hneg⟩ := records_negative hc hlive hbad
  exact hneg ((hall p hrun).1 _)

end Runs

/-- A refund: a grant of minus five, under a tag of its own. -/
def refund : BudgetGrant := ⟨-5, some "refund", none⟩

/-- A resume that grants a refund is refused and leaves the log as it was. -/
theorem amounts_in_order_resume :
    ∃ p, Reaches Call.GrantOk [] p ∧ p.threads.length = 2 ∧ p.shared = openedWithTen ∧ InOrder p :=
  have h : Playable (works still) Call.GrantOk [.call openRoot, .perform 0,
      .call (.resume ⟨"id", "minted"⟩ (some refund) ⟨some "db", "root"⟩), .perform 1,
      .perform 1] [] :=
    ⟨⟨by decide, Call.NonNeg.grantOk (by decide)⟩, ⟨by decide, trivial⟩, trivial⟩
  have h₀ : ∀ s, NonNegLedger (Database.stream [] s) := fun _ _ he => absurd he List.not_mem_nil
  ⟨_, reaches_played h, rfl, rfl,
    (amounts_in_order Call.GrantOk [] h₀).1 (fun _ h => h) _ (reaches_played h)⟩

/-- A refund was granted on a stream that opened without a budget: the call
answered that the amount is wrong, the event is in the log with its negative
amount, the stream keeps a ledger from then on, and its last grant has the
refund's tag. -/
theorem grant_more_records_a_negative :
    ∃ p, Reaches (fun _ => True) [] p ∧ ∃ t ∈ p.threads,
      t.call = .grantMore { rootHandle with scope := ⟨"scope", "owner", none⟩ } refund ∧
      (∃ why, t.rest = .ret (.error (.validation why))) ∧
      ∃ d ∈ t.done, foldBalance (d.before.stream "root") = none ∧
        foldBalance (d.after.stream "root") = some 0 ∧
        (lastGrant (d.after.stream "root")).bind BudgetGrant.tag = some "refund" ∧
        ∃ e ∈ p.shared.stream "root", e.kind = KIND_BUDGET_GRANTED ∧ rawAmount e = -5 :=
  have h : Playable (works still) (fun _ => True)
      [.call (.openOn ⟨"root", "scope"⟩ "owner" none none ⟨some "db", "root"⟩), .perform 0,
        .call (.grantMore { rootHandle with scope := ⟨"scope", "owner", none⟩ } refund),
        .perform 1] [] :=
    ⟨⟨by decide, trivial⟩, ⟨by decide, trivial⟩, trivial⟩
  ⟨_, reaches_played h, _, List.mem_cons_of_mem _ List.mem_cons_self, rfl, ⟨_, rfl⟩,
    _, List.mem_cons_self, rfl, by decide, by decide, _,
    List.mem_cons_of_mem _ List.mem_cons_self, rfl, by decide⟩

end AgentBlock.Knl
