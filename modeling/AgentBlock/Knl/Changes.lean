/-
AgentBlock/Knl/Changes.lean

Everything one store operation of a call can do to the database.

`Change c db db'` collects the outcomes of the decisions call by call: the
rows that were added and what the log looked like when they were.  Every
invariant of the later modules is a case analysis of it.

Main results:

* `change_of_sem` — one operation of a call makes one `Change`;
* `not_ended_change` — only a close ends a stream.
-/
import AgentBlock.Knl.Decisions

namespace AgentBlock.Knl

open Interleaving

/-! ### What a call was given -/

/-- The grant a call would record. -/
def Call.grant : Call → Option BudgetGrant
  | .openOn _ _ grant _ _ | .resume _ grant _ => grant
  | .grantOnResume _ grant | .grantMore _ grant => some grant
  | _ => none

/-- The amount a call asks to move. -/
def Call.moves : Call → Option I64
  | .reserve _ n | .spend _ n => some n
  | .openChild _ _ _ _ _ allocation _ _ => some allocation.amount
  | _ => none

/-- A call that grants only on a stream that already keeps a ledger. -/
def Call.regrants : Call → Bool
  | .resume .. | .grantOnResume .. => true
  | _ => false

/-- Every amount of a call is non-negative. -/
def Call.NonNeg (c : Call) : Prop :=
  (∀ g ∈ c.grant, 0 ≤ g.amount.val) ∧ ∀ n ∈ c.moves, 0 ≤ n.val

instance (c : Call) : Decidable c.NonNeg := inferInstanceAs (Decidable (_ ∧ _))

/-- The grant of a call is in order where the call does not see to it itself:
an opening and a later grant on an open handle write what they are given. -/
def Call.GrantOk : Call → Prop
  | .openOn _ _ grant labels _ =>
      (∀ g ∈ grant, 0 ≤ g.amount.val) ∨ checkMeta (labels.map Json.obj) ≠ .ok ()
  | .grantMore h grant => 0 ≤ grant.amount.val ∨ h.closed = true
  | _ => True

theorem Call.NonNeg.grantOk {c : Call} (h : c.NonNeg) : c.GrantOk := by
  cases c with
  | openOn => exact Or.inl h.1
  | grantMore => exact Or.inl (h.1 _ rfl)
  | _ => trivial

/-- A grant as it reads in the log, with its tag. -/
def Grants (ev : Current) (g : BudgetGrant) : Prop :=
  view ev = ⟨KIND_BUDGET_GRANTED, g.amount, none, none⟩ ∧ stringField ev FIELD_TAG = g.tag

/-! ### Changes -/

/-- What one operation of the call `c` makes of the database. -/
inductive Change : Call → Database → Database → Prop
  | none (c : Call) (db : Database) : Change c db db
  | opened {m : Minted} {owner : String} {grant : Option BudgetGrant} {labels : Option Obj}
      {store : Store} {db : Database} {ev : Current} {gv : Option Current} :
      checkMeta (labels.map Json.obj) = .ok () → Opening ev owner m.scopeId none →
      gv.map (fun e => (view e, stringField e FIELD_TAG)) = grant.map (fun g =>
        ((⟨KIND_BUDGET_GRANTED, g.amount, .none, .none⟩ : View), g.tag)) →
      Change (.openOn m owner grant labels store) db
        (db ++ ⟨store.stream, ev⟩ :: (gv.map (Row.mk store.stream)).toList)
  | granted {c : Call} {g : BudgetGrant} {db : Database} {ev : Current} :
      c.grant = some g →
      (c.regrants = true → Granted (db.stream c.stream)) → (c.GrantOk → 0 ≤ g.amount.val) →
      Grants ev g → Change c db (db ++ [⟨c.stream, ev⟩])
  | noted {h : Session} {event : Obj} {db : Database} {ev : Current} :
      isKernelOnly ev.kind = false →
      Change (.append h event) db (db ++ [⟨h.store.stream, ev⟩])
  | reserved {h : Session} {n : I64} {db : Database} {b : I64} {ev : Current} :
      0 ≤ n.val → foldBalance (db.stream h.store.stream) = some b → n.val ≤ b.val →
      view ev = ⟨KIND_BUDGET_RESERVED, n, .none, .none⟩ →
      Change (.reserve h n) db (db ++ [⟨h.store.stream, ev⟩])
  | refused {c : Call} {n : I64} {child : Option String} {db : Database} {b : I64}
      {ev : Current} :
      c.moves = some n → 0 ≤ n.val → foldBalance (db.stream c.stream) = some b →
      b.val < n.val → view ev = ⟨KIND_BUDGET_REFUSED, n, child, .none⟩ →
      Change c db (db ++ [⟨c.stream, ev⟩])
  | spent {h : Session} {n : I64} {db : Database} {ev : Current} :
      0 ≤ n.val → Granted (db.stream h.store.stream) →
      view ev = ⟨KIND_BUDGET_SPENT, n, .none, .none⟩ →
      Change (.spend h n) db (db ++ [⟨h.store.stream, ev⟩])
  | allocated {h : Session} {m : Minted} {childScope childStream owner : String}
      {allocation : Allocation} {labels : Option Obj} {childStore : Store}
      {db db' : Database} :
      0 ≤ allocation.amount.val →
      Covers db h.store.stream childStream allocation.amount →
      Allocated db db' h.store.stream
        (h.plan childScope childStream owner allocation labels) →
      Change (.openChild h m childScope childStream owner allocation labels childStore) db db'
  | closed {h : Session} {reason detail : Option String} {db : Database} {ev : Current} :
      view ev = ⟨KIND_SESSION_CLOSED, 0, .none, .none⟩ →
      dataField ev FIELD_OPEN_CHILDREN =
        (if openChildrenIn db h.store.stream childScan = [] then .none
          else some (.arr ((openChildrenIn db h.store.stream childScan).map Json.str))) →
      Change (.closeWith h reason detail) db (db ++ [⟨h.store.stream, ev⟩])
  | closedDetached {h : Session} {reason : String} {db : Database} {ev : Current} :
      view ev = ⟨KIND_SESSION_CLOSED, 0, .none, .none⟩ →
      dataField ev FIELD_OPEN_CHILDREN = .none →
      Change (.closeDetached h reason) db (db ++ [⟨h.store.stream, ev⟩])

/-- **One operation of a call makes one change.** -/
theorem change_of_sem {c : Call} {op : StoreOp} {db db' : Database} {a : op.Ans}
    (hc : Issues c op) (h : Sem op db a db') : Change c db db' := by
  cases hc with
  | read | head =>
      rcases h.cases' with ⟨-, -, -, rfl⟩ | ⟨clock, -, rfl⟩ <;> exact .none _ _
  | openOn m owner grant labels store =>
      rcases open_cases h with ⟨-, -, -, rfl⟩ | ⟨-, -, -, rfl⟩ | ⟨ev, c, gv, hm, ho, hg, -, rfl⟩
      · exact .none _ _
      · exact .none _ _
      · exact .opened hm ho hg
  | resume m store scope hn =>
      rcases resumeGrant_cases h with ⟨-, -, -, rfl⟩ | ⟨-, -, rfl⟩ | ⟨ev, c, hg, hv, ht, -, rfl⟩
      · exact .none _ _
      · exact .none _ _
      · exact .granted (c := .resume m (some _) store) rfl
          (fun _ => hg) (fun _ => checkAmount_ok.mp hn) ⟨hv, ht⟩
  | grantOnResume h' hn =>
      rcases resumeGrant_cases h with ⟨-, -, -, rfl⟩ | ⟨-, -, rfl⟩ | ⟨ev, c, hg, hv, ht, -, rfl⟩
      · exact .none _ _
      · exact .none _ _
      · exact .granted (c := .grantOnResume h' _) rfl
          (fun _ => hg) (fun _ => checkAmount_ok.mp hn) ⟨hv, ht⟩
  | grantMore h' grant hopen =>
      rcases grant_cases h with ⟨-, -, -, rfl⟩ | ⟨ev, c, hv, ht, -, rfl⟩
      · exact .none _ _
      · exact .granted (c := .grantMore h' grant) rfl (fun hr => by cases hr)
          (fun hok => hok.resolve_right (by simp [hopen])) ⟨hv, ht⟩
  | openChild h' m childScope childStream owner labels childStore hn =>
      rcases @allocation_cases _ _ _ (h'.plan childScope childStream owner _ labels) _ h with
        ⟨-, -, -, rfl⟩ | ⟨-, -, rfl⟩ | ⟨-, -, -, rfl⟩ |
        ⟨b, ev, c, -, -, hb, hlt, hv, -, rfl⟩ | ⟨-, -, -, -, rfl⟩ | ⟨hcov, -, -, ⟨hall⟩⟩
      · exact .none _ _
      · exact .none _ _
      · exact .none _ _
      · exact .refused (c := .openChild h' m childScope childStream owner _ labels childStore)
          rfl (checkAmount_ok.mp hn) hb hlt hv
      · exact .none _ _
      · exact .allocated (checkAmount_ok.mp hn) hcov hall
  | append h' hk =>
      rcases append_cases h with ⟨-, -, -, rfl⟩ | ⟨-, -, -, rfl⟩ | ⟨clock, c, -, -, rfl⟩
      · exact .none _ _
      · exact .none _ _
      · exact .noted (by rw [landed_kind]; exact hk)
  | reserve h' hn =>
      rcases reserve_cases h with ⟨-, -, -, rfl⟩ | ⟨-, -, rfl⟩ | ⟨b, ev, c, hb, hle, hv, -, rfl⟩ |
        ⟨b, ev, c, hb, hlt, hv, -, rfl⟩
      · exact .none _ _
      · exact .none _ _
      · exact .reserved (checkAmount_ok.mp hn) hb hle hv
      · exact .refused (c := .reserve h' _) rfl (checkAmount_ok.mp hn) hb hlt hv
  | spend h' hn =>
      rcases spend_cases h with ⟨-, -, -, rfl⟩ | ⟨-, -, rfl⟩ | ⟨ev, c, hg, hv, -, rfl⟩
      · exact .none _ _
      · exact .none _ _
      · exact .spent (checkAmount_ok.mp hn) hg hv
  | closeWith h' reason detail =>
      rcases close_cases h with ⟨-, -, -, rfl⟩ | ⟨ev, c, hv, ho, -, rfl⟩
      · exact .none _ _
      · exact .closed hv ho
  | closeDetached h' reason =>
      rcases detach_cases h with rfl | ⟨ev, hv, ho, rfl⟩
      · exact .none _ _
      · exact .closedDetached hv ho

/-- What holds once an opening has landed, and again once its grant has,
holds of the two of them together. -/
theorem opened_rows {I : Database → Prop} {db : Database} {s : String} {ev : Current}
    {gv : Option Current} {grant : Option BudgetGrant}
    (hg : gv.map (fun e => (view e, stringField e FIELD_TAG)) = grant.map (fun g =>
      ((⟨KIND_BUDGET_GRANTED, g.amount, none, none⟩ : View), g.tag)))
    (h₁ : I (db ++ [⟨s, ev⟩]))
    (h₂ : ∀ g e, grant = some g → Grants e g → I (db ++ [⟨s, ev⟩] ++ [⟨s, e⟩])) :
    I (db ++ ⟨s, ev⟩ :: (gv.map (Row.mk s)).toList) := by
  cases gv with
  | none => exact h₁
  | some e =>
      obtain ⟨g, rfl⟩ : ∃ g, grant = some g := by
        cases grant <;> simp at hg ⊢
      obtain ⟨hv, ht⟩ : view e = ⟨KIND_BUDGET_GRANTED, g.amount, none, none⟩ ∧
          stringField e FIELD_TAG = g.tag := by simpa using hg
      simpa using h₂ g e rfl ⟨hv, ht⟩

/-- A change only appends. -/
theorem Change.grows {c : Call} {db db' : Database} (h : Change c db db') : db <+: db' := by
  cases h with
  | none => exact List.prefix_rfl
  | allocated _ _ hall =>
      rw [hall.rows]
      exact List.prefix_append _ _
  | opened | granted | noted | reserved | refused | spent | closed | closedDetached =>
      exact List.prefix_append _ _

/-! ### Endings -/

/-- The call ends the stream. -/
def Call.Closes (c : Call) (s : String) : Prop :=
  match c with
  | .closeWith h .. | .closeDetached h _ => h.store.stream = s
  | _ => False

theorem stream_concat (db : Database) (s t : String) (e : Current) :
    Database.stream (db ++ [⟨t, e⟩]) s = db.stream s ++ if t = s then [e] else [] := by
  rw [Database.stream_append]
  split
  · subst_vars
    simp
  · rw [Database.stream_cons_of_ne ‹_›]
    rfl

theorem ended_append {events more : List Current} :
    Ended (events ++ more) ↔ Ended events ∨ Ended more := by
  simp [Ended, or_and_right, exists_or]

theorem ended_singleton {e : Current} : Ended [e] ↔ e.kind = KIND_SESSION_CLOSED := by
  simp [Ended]

theorem not_ended_row {db : Database} {s t : String} {e : Current}
    (h : ¬ Ended (db.stream s)) (he : t = s → e.kind ≠ KIND_SESSION_CLOSED) :
    ¬ Ended (Database.stream (db ++ [⟨t, e⟩]) s) := by
  rw [stream_concat, ended_append]
  split
  · rw [ended_singleton]
    exact not_or.mpr ⟨h, he ‹_›⟩
  · exact not_or.mpr ⟨h, by simp [Ended]⟩

/-- Only a close ends a stream. -/
theorem not_ended_change {c : Call} {db db' : Database} {s : String} (hc : Change c db db')
    (hno : ¬ c.Closes s) (h : ¬ Ended (db.stream s)) : ¬ Ended (db'.stream s) := by
  cases hc with
  | none => exact h
  | @opened m owner grant labels store db ev gv hm ho hg =>
      have h₁ := not_ended_row (t := store.stream) (e := ev) h
        fun _ => by rw [kind_of_view ho.1]; simp
      exact opened_rows (I := fun db => ¬ Ended (db.stream s)) hg h₁ fun g e _ hv =>
        not_ended_row h₁ fun _ => by rw [kind_of_view hv.1]; simp
  | granted _ _ _ hv => exact not_ended_row h fun _ => by rw [kind_of_view hv.1]; simp
  | noted hk =>
      refine not_ended_row h fun _ hcl => ?_
      rw [hcl] at hk
      exact absurd hk (by decide)
  | reserved _ _ _ hv | spent _ _ hv =>
      exact not_ended_row h fun _ => by rw [kind_of_view hv]; simp
  | refused _ _ _ _ hv => exact not_ended_row h fun _ => by rw [kind_of_view hv]; simp
  | @allocated hd m childScope childStream owner allocation labels childStore db db' hn hcov hall =>
      have h₁ := not_ended_row (t := hd.store.stream) (e := hall.own) h
        fun _ => by rw [kind_of_view hall.own_view]; simp
      have h₂ := not_ended_row (t := childStream) (e := hall.opened) h₁
        fun _ => by rw [kind_of_view hall.opening.1]; simp
      have h₃ := not_ended_row (t := childStream) (e := hall.granted) h₂
        fun _ => by rw [kind_of_view hall.granted_view]; simp
      rw [hall.rows]
      simpa using h₃
  | closed _ _ | closedDetached _ _ =>
      exact not_ended_row h fun ht _ => hno ht

end AgentBlock.Knl
