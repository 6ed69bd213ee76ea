/-
AgentBlock/Knl/Conservation.lean

The units of a tree of sessions.

A stream holds its balance.  Units come into a database from outside in two
ways only: an owner grants them, or a parent with no ledger of its own hands
them to a child.  Everything else moves them between two streams or loses
them.

Main results:

* `conserved_change` — one operation of any call adds to what the streams hold
  at most what it brings in;
* `conservation` — the same of every run, and what each allocation moved;
* `open_child_may_fail_after_it_moved` — an allocation whose child was ended
  before it could be resumed.
-/
import AgentBlock.Knl.BudgetSafety
import Mathlib.Algebra.BigOperators.Group.Finset.Basic

namespace AgentBlock.Knl

open Interleaving

/-! ### What is held, and what came in -/

/-- What a stream holds: its balance, and nothing where it has none. -/
def held (db : Database) (s : String) : ℤ :=
  (foldBalance (db.stream s)).elim 0 fun b => max b.val 0

/-- The streams of a database. -/
def streams (db : Database) : Finset String := (db.map Row.stream).toFinset

/-- What all the streams of a database hold. -/
def heldTotal (db : Database) : ℤ := ∑ s ∈ streams db, held db s

/-- A grant of an owner: one that does not name a parent. -/
def ownersGrant (row : Row) : ℤ :=
  if row.event.kind = KIND_BUDGET_GRANTED ∧ stringField row.event FIELD_PARENT = none then
    (rawAmount row.event).val
  else 0

/-- Everything owners granted. -/
def ownersTotal (db : Database) : ℤ := (db.map ownersGrant).sum

/-- An allocation by a parent with no ledger: a reservation for a child, in a
stream nothing was granted on before it. -/
def unbacked (before : Database) (row : Row) : ℤ :=
  if row.event.kind = KIND_BUDGET_RESERVED ∧ (stringField row.event FIELD_CHILD).isSome ∧
      ¬ Granted (before.stream row.stream) then
    (rawAmount row.event).val
  else 0

/-- Everything parents with no ledger allocated, after `before`. -/
def unbackedAfter : Database → Database → ℤ
  | _, [] => 0
  | before, row :: rest => unbacked before row + unbackedAfter (before ++ [row]) rest

/-- Everything parents with no ledger allocated. -/
def unbackedTotal (db : Database) : ℤ := unbackedAfter [] db

/-- Nothing is held that did not come in. -/
def Conserved (db : Database) : Prop := heldTotal db ≤ ownersTotal db + unbackedTotal db

section Totals

variable {db : Database} {s t : String} {e : Current}

theorem held_none (h : foldBalance (db.stream s) = none) : held db s = 0 := by
  rw [held, h]
  rfl

theorem held_some {b : I64} (h : foldBalance (db.stream s) = some b) : held db s = b.val := by
  rw [held, h]
  exact max_eq_left (foldBalance_nonneg _ b h)

theorem held_nonneg (db : Database) (s : String) : 0 ≤ held db s := by
  unfold held
  cases foldBalance (db.stream s) with
  | none => exact le_rfl
  | some b => exact le_max_right _ _

theorem held_empty (h : s ∉ streams db) : held db s = 0 := by
  refine held_none (foldBalance_eq_none.mpr ?_)
  rintro ⟨e, he, -⟩
  refine h (List.mem_toFinset.mpr (List.mem_map.mpr ⟨_, Database.mem_stream.mp he, rfl⟩))

theorem held_row_of_ne (h : t ≠ s) : held (db ++ [⟨t, e⟩]) s = held db s := by
  rw [held, held, stream_concat, if_neg h, List.append_nil]

/-- One row moves what its own stream holds and nothing else. -/
theorem heldTotal_row (db : Database) (t : String) (e : Current) :
    heldTotal (db ++ [⟨t, e⟩]) = heldTotal db + (held (db ++ [⟨t, e⟩]) t - held db t) := by
  have hs : streams (db ++ [⟨t, e⟩]) = insert t (streams db) := by
    ext x
    simp [streams]
  have hbig : heldTotal db = ∑ s ∈ insert t (streams db), held db s :=
    Finset.sum_subset (Finset.subset_insert _ _) fun s _ hs => held_empty hs
  have hdiff : ∑ s ∈ insert t (streams db), (held (db ++ [⟨t, e⟩]) s - held db s) =
      held (db ++ [⟨t, e⟩]) t - held db t :=
    Finset.sum_eq_single_of_mem t (Finset.mem_insert_self _ _) fun s _ hne => by
      rw [held_row_of_ne hne.symm, sub_self]
  rw [Finset.sum_sub_distrib] at hdiff
  rw [heldTotal, hs, hbig]
  omega

@[simp] theorem ownersTotal_append (more : Database) :
    ownersTotal (db ++ more) = ownersTotal db + ownersTotal more := by
  simp [ownersTotal]

theorem unbackedAfter_append (before more : Database) :
    unbackedAfter before (db ++ more) =
      unbackedAfter before db + unbackedAfter (before ++ db) more := by
  induction db generalizing before with
  | nil => simp [unbackedAfter]
  | cons row rest ih => simp [unbackedAfter, ih, add_assoc]

theorem unbackedTotal_row (row : Row) :
    unbackedTotal (db ++ [row]) = unbackedTotal db + unbacked db row := by
  simp [unbackedTotal, unbackedAfter_append, unbackedAfter]

end Totals

/-! ### What one row moves -/

section Rows

variable {db : Database} {t : String} {e : Current}

theorem fold_none_concat {events : List Current} (h : foldBalance events = none)
    (hk : e.kind ≠ KIND_BUDGET_GRANTED) : foldBalance (events ++ [e]) = none := by
  rw [foldBalance_concat, h, foldStep, if_neg hk]
  split <;> rfl

/-- Nothing but a grant adds to what a stream holds. -/
theorem held_row_le (hk : e.kind ≠ KIND_BUDGET_GRANTED) :
    held (db ++ [⟨t, e⟩]) t ≤ held db t := by
  have hs : Database.stream (db ++ [⟨t, e⟩]) t = db.stream t ++ [e] := by simp
  cases hb : foldBalance (db.stream t) with
  | none =>
      rw [held_none (hs ▸ fold_none_concat hb hk)]
      exact held_nonneg _ _
  | some b =>
      obtain ⟨b', hb', hle⟩ := @fold_mono _ [e] _ hb (by simpa using hk)
      rw [held_some hb, held_some (hs ▸ hb')]
      exact hle

/-- A grant adds its amount at most. -/
theorem held_row_granted (hk : e.kind = KIND_BUDGET_GRANTED) (hn : 0 ≤ (rawAmount e).val) :
    held (db ++ [⟨t, e⟩]) t ≤ held db t + (rawAmount e).val := by
  have hs : Database.stream (db ++ [⟨t, e⟩]) t = db.stream t ++ [e] := by simp
  obtain ⟨b', hb', hv⟩ := @fold_granted (db.stream t) _ hk
  rw [amountOf_of_nonneg hn] at hv
  rw [held_some (hs ▸ hb')]
  cases hb : foldBalance (db.stream t) with
  | none =>
      rw [hb] at hv
      rw [held_none hb]
      simp at hv
      omega
  | some b =>
      rw [hb] at hv
      rw [held_some hb]
      simp at hv
      omega

/-- A row brings in what it adds, unless it is a child's grant. -/
theorem Conserved.row (h : Conserved db)
    (hn : e.kind ∈ BUDGET_KINDS → 0 ≤ (rawAmount e).val)
    (hp : e.kind = KIND_BUDGET_GRANTED → stringField e FIELD_PARENT = none) :
    Conserved (db ++ [⟨t, e⟩]) := by
  unfold Conserved at h ⊢
  rw [heldTotal_row, ownersTotal_append, unbackedTotal_row]
  by_cases hk : e.kind = KIND_BUDGET_GRANTED
  · have hraw := hn (by simp [hk, BUDGET_KINDS])
    have hle : held (db ++ [⟨t, e⟩]) t ≤ held db t + (rawAmount e).val :=
      held_row_granted hk hraw
    have ho : ownersTotal [⟨t, e⟩] = (rawAmount e).val := by
      simp [ownersTotal, ownersGrant, hk, hp hk]
    have hu : unbacked db ⟨t, e⟩ = 0 := by simp [unbacked, hk]
    omega
  · have hle : held (db ++ [⟨t, e⟩]) t ≤ held db t := held_row_le hk
    have ho : ownersTotal [⟨t, e⟩] = 0 := by simp [ownersTotal, ownersGrant, hk]
    have hu : 0 ≤ unbacked db ⟨t, e⟩ := by
      unfold unbacked
      split
      · rename_i hr
        have hr' : e.kind = KIND_BUDGET_RESERVED := hr.1
        exact hn (by simp [hr', BUDGET_KINDS])
      · exact le_rfl
    omega

theorem Conserved.row_of_view {v : View} (h : Conserved db) (hv : view e = v)
    (hn : 0 ≤ v.amount.val) (hp : v.parent = none) : Conserved (db ++ [⟨t, e⟩]) :=
  h.row (fun _ => by rw [amount_of_view hv]; exact hn)
    fun _ => by rw [parent_of_view hv]; exact hp

end Rows

/-! ### What an allocation moves -/

/-- The units of an allocation moved from the parent's stream to the child's:
the parent's balance, where it has one, covered the amount and fell by exactly
that; the child's stream was empty and its balance is exactly the amount. -/
structure UnitsMoved (db db' : Database) (s child : String) (amount : I64) : Prop where
  fell : ∀ b ∈ foldBalance (db.stream s), ∃ b' ∈ foldBalance (db'.stream s),
    amount.val ≤ b.val ∧ b'.val = b.val - amount.val
  unbacked : foldBalance (db.stream s) = none → foldBalance (db'.stream s) = none
  empty : db.stream child = []
  rose : foldBalance (db'.stream child) = some amount

theorem Allocated.unitsMoved {db db' : Database} {s : String} {plan : AllocationPlan}
    (hall : Allocated db db' s plan) (hcov : Covers db s plan.child plan.amount)
    (hn : 0 ≤ plan.amount.val) (hne : plan.child ≠ s) :
    UnitsMoved db db' s plan.child plan.amount where
  fell := fun b hb => by
    obtain ⟨b', hb', hv⟩ := fold_move (Or.inl (kind_of_view hall.own_view)) (Option.mem_def.mp hb)
    have hraw := amount_of_view hall.own_view
    rw [amountOf_of_nonneg (by rw [hraw]; exact hn), hraw] at hv
    have hle := hcov.2.2 b hb
    exact ⟨b', by rw [hall.stream_own hne]; exact hb', hle, by simp at hv hle ⊢; omega⟩
  unbacked := fun h => by
    rw [hall.stream_own hne]
    exact fold_none_concat h (by rw [kind_of_view hall.own_view]; simp)
  empty := hcov.1
  rose := by
    have hchild := hall.stream_child hne
    rw [hcov.1] at hchild
    have hopened : foldBalance [hall.opened] = none :=
      @fold_none_concat _ [] rfl (by rw [kind_of_view hall.opening.1]; simp)
    obtain ⟨b, hb, hv⟩ := @fold_granted [hall.opened] _ (kind_of_view hall.granted_view)
    have hraw := amount_of_view hall.granted_view
    rw [amountOf_of_nonneg (by rw [hraw]; exact hn), hraw, hopened] at hv
    rw [hchild]
    refine hb.trans (congrArg some (I64.ext ?_))
    have := plan.amount.hi
    simp at hv
    omega

/-- An allocation keeps what the tree holds, or brings in what its parent had
no ledger for. -/
theorem Allocated.conserved {db db' : Database} {s : String} {plan : AllocationPlan}
    (hall : Allocated db db' s plan) (hm : UnitsMoved db db' s plan.child plan.amount)
    (hn : 0 ≤ plan.amount.val) (hne : plan.child ≠ s) (h : Conserved db) : Conserved db' := by
  obtain ⟨own, opened, granted, hown, hopening, hgranted, -, hrows⟩ := hall
  let db₁ : Database := db ++ [⟨s, own⟩]
  let db₂ : Database := db₁ ++ [⟨plan.child, opened⟩]
  have hrows : db' = db₂ ++ [⟨plan.child, granted⟩] := hrows.trans (by simp [db₁, db₂])
  have hk₁ := kind_of_view hown
  have hk₂ := kind_of_view hopening.1
  have hk₃ := kind_of_view hgranted
  have ho : ownersTotal db' = ownersTotal db := by
    have hp : stringField granted "parent" = some plan.parent := parent_of_view hgranted
    simp only [hrows, db₂, db₁, ownersTotal_append]
    simp [ownersTotal, ownersGrant, hk₁, hk₂, hp]
  have hu : unbackedTotal db' = unbackedTotal db + unbacked db ⟨s, own⟩ := by
    have h₂ : unbacked db₁ ⟨plan.child, opened⟩ = 0 := by simp [unbacked, hk₂]
    have h₃ : unbacked db₂ ⟨plan.child, granted⟩ = 0 := by simp [unbacked, hk₃]
    rw [hrows, unbackedTotal_row, h₃, unbackedTotal_row, h₂, unbackedTotal_row]
    omega
  -- two streams hold something else: the parent's and the child's
  have hheld : heldTotal db' = heldTotal db + (held db' s - held db s) +
      (held db' plan.child - held db plan.child) := by
    have e₁ : held db₁ plan.child = held db plan.child := held_row_of_ne hne.symm
    have e₂ : held db₂ s = held db₁ s := held_row_of_ne hne
    have e₃ : held db' s = held db₂ s := hrows ▸ held_row_of_ne hne
    have t₁ : heldTotal db₁ = heldTotal db + (held db₁ s - held db s) := heldTotal_row ..
    have t₂ : heldTotal db₂ = heldTotal db₁ + (held db₂ plan.child - held db₁ plan.child) :=
      heldTotal_row ..
    have t₃ := heldTotal_row db₂ plan.child granted
    rw [← hrows] at t₃
    omega
  have hchild : held db' plan.child - held db plan.child = plan.amount.val := by
    have hnone : foldBalance (db.stream plan.child) = none := by rw [hm.empty]; rfl
    rw [held_some hm.rose, held_none hnone, sub_zero]
  unfold Conserved at h ⊢
  cases hb : foldBalance (db.stream s) with
  | none =>
      -- a parent with no ledger: the units are new
      have hub : unbacked db ⟨s, own⟩ = plan.amount.val := by
        have hc : stringField own "child" = some plan.child := child_of_view hown
        have hng : ¬ Granted (db.stream s) := foldBalance_eq_none.mp hb
        simp [unbacked, hk₁, hc, hng, amount_of_view hown]
      rw [held_none hb, held_none (hm.unbacked hb)] at hheld
      omega
  | some b =>
      obtain ⟨b', hb', -, hv⟩ := hm.fell b hb
      have hub : 0 ≤ unbacked db ⟨s, own⟩ := by
        unfold unbacked
        split
        · rw [amount_of_view hown]
          exact hn
        · exact le_rfl
      rw [held_some hb, held_some hb'] at hheld
      omega

/-! ### One operation of a call -/

/-- **One operation of a call adds to what the streams hold at most what it
brings in.** -/
theorem conserved_change {c : Call} {db db' : Database} (hlive : Live db c)
    (hc : Change c db db') (hn : c.NonNeg) (h : Conserved db) : Conserved db' := by
  cases hc with
  | none => exact h
  | @opened m owner grant labels store db ev gv hm ho hg =>
      have h₁ := h.row_of_view (t := store.stream) ho.1 le_rfl rfl
      exact opened_rows (I := Conserved) hg h₁ fun g e hgr hv =>
        h₁.row_of_view hv.1 (hn.1 g hgr) rfl
  | granted hg _ _ hv => exact h.row_of_view hv.1 (hn.1 _ hg) rfl
  | noted hk =>
      have hno : _ ∉ BUDGET_KINDS := not_budget_of_not_kernelOnly hk
      exact h.row (fun hb => absurd hb hno) fun hg => absurd (by simp [hg, BUDGET_KINDS]) hno
  | reserved hn' _ _ hv | spent hn' _ hv => exact h.row_of_view hv hn' rfl
  | refused _ hn' _ _ hv => exact h.row_of_view hv hn' rfl
  | @allocated hd m childScope childStream owner allocation labels childStore db db' hn' hcov hall =>
      have hne : childStream ≠ hd.store.stream := by
        rintro rfl
        exact hlive hd rfl hcov.1
      exact hall.conserved (hall.unitsMoved hcov hn' hne) hn' hne h
  | closed hv | closedDetached hv => exact h.row_of_view hv le_rfl rfl

/-! ### Runs -/

/-- An operation that moved no units of the two streams, and added nothing to
the second. -/
def Unmoved (s child : String) (d : Performed Database StoreOp StoreOp.Ans) : Prop :=
  foldBalance (d.after.stream s) = foldBalance (d.before.stream s) ∧
    d.after.stream child = d.before.stream child

/-- What an allocation that returned did: its write moved the units and it was
answered as a child that was allocated is, or it failed and moved nothing. -/
def MovesUnits (db : Database) (t : CallThread) : Prop :=
  ∀ h m childScope childStream owner allocation labels childStore r,
    t.call = .openChild h m childScope childStream owner allocation labels childStore →
    childStore.stream = childStream → t.rest = .ret r →
    (∃ d rest, t.done = d :: rest ∧ Quiet rest ∧
      UnitsMoved d.before d.after h.store.stream childStream allocation.amount ∧
      Reopened db childStream r) ∨
    ((∃ e, r = .error e) ∧ ∀ d ∈ t.done, Unmoved h.store.stream childStream d)

section Runs

variable {calls : Call → Prop} {p : KnlPool}

theorem unmoved_of_quiet {s child : String} {d : Performed Database StoreOp StoreOp.Ans}
    (h : d.after = d.before) : Unmoved s child d := by
  unfold Unmoved
  rw [h]
  exact ⟨rfl, rfl⟩

theorem Reaches.movesUnits {db₀ : Database} (hcalls : ∀ c, calls c → c.NonNeg)
    (hrun : Reaches calls db₀ p) {t : CallThread} (ht : t ∈ p.threads) :
    MovesUnits p.shared t := by
  intro h m childScope childStream owner allocation labels childStore r hcall hstore hrest
  obtain ⟨db, hdb, ⟨hlive, hok⟩, hs⟩ := hrun.returned ht hrest
  rw [hcall] at hs hok hlive
  have hn : 0 ≤ allocation.amount.val := (hcalls _ hok).2 _ rfl
  by_cases hchecks : h.closed = false ∧
      Session.checkDatabase h.store.database childStore.database = .ok ()
  swap
  · obtain ⟨hdone, hr⟩ := openChild_unchecked hchecks hs
    exact Or.inr ⟨hr, by simp [hdone]⟩
  obtain ⟨d, rest, hdone, hq, hR, -, hall⟩ := openChild_seen hchecks.1 hn hchecks.2 hs
  -- the parent's stream has had events since the call was made
  have hne : d.before.stream childStream = [] → childStream ≠ h.store.stream := by
    rintro hnil rfl
    have hp := Database.stream_grows (s := h.store.stream)
      (others_grow (fun _ _ => Moves.grows) hR)
    rw [hnil] at hp
    exact hlive h rfl (List.prefix_nil.mp hp)
  have hquiet : d.after = d.before → ∀ d' ∈ t.done, Unmoved h.store.stream childStream d' := by
    intro hd d' hd'
    rw [hdone] at hd'
    rcases List.mem_cons.mp hd' with rfl | hd'
    · exact unmoved_of_quiet hd
    · exact unmoved_of_quiet (hq d' hd')
  cases hall with
  | failed _ hd | occupied _ hd | ended _ _ hd | labels _ _ hd =>
      exact Or.inr ⟨⟨_, rfl⟩, hquiet hd⟩
  | @refused why b ev hnil _ _ _ hv hrow =>
      refine Or.inr ⟨⟨_, rfl⟩, fun d' hd' => ?_⟩
      rw [hdone] at hd'
      rcases List.mem_cons.mp hd' with rfl | hd'
      · have hs : h.store.stream ≠ childStream := (hne hnil).symm
        unfold Unmoved
        rw [hrow, stream_concat, stream_concat, if_pos rfl, if_neg hs, List.append_nil,
          foldBalance_concat, foldStep_refused (kind_of_view hv)]
        exact ⟨rfl, rfl⟩
      · exact unmoved_of_quiet (hq d' hd')
  | opened hcov _ hall hre =>
      have hne := hne hcov.1
      have hchild : d.after.stream childStream = [hall.opened, hall.granted] :=
        (hall.stream_child hne).trans (congrArg (· ++ _) hcov.1)
      exact Or.inl ⟨d, rest, hdone, hq, hall.unitsMoved hcov hn hne,
        reopen_records hstore hchild (kind_of_view hall.opening.1) hre⟩

/-- **Conservation of a tree**: in every database the calls can reach, the
streams hold at most what owners granted and what parents with no ledger
allocated, and each allocation moved its units or moved nothing. -/
theorem conservation (hcalls : ∀ c, calls c → c.NonNeg) (hrun : Reaches calls [] p) :
    heldTotal p.shared ≤ ownersTotal p.shared + unbackedTotal p.shared ∧
      ∀ t ∈ p.threads, MovesUnits p.shared t :=
  ⟨hrun.inv (I := Conserved) (fun c _ _ hl hc hch => conserved_change hl hch (hcalls c hc)) le_rfl,
    fun _ ht => hrun.movesUnits hcalls ht⟩

end Runs

/-- The root opens with ten units. -/
def openRoot : Call :=
  .openOn ⟨"root", "scope"⟩ "owner" (some ⟨10, none, none⟩) none ⟨some "db", "root"⟩

/-- The root hands four of them to a child. -/
def openFour : Call :=
  .openChild rootHandle ⟨"id", "minted"⟩ "scope2" "child" "owner" ⟨4, none⟩ none
    ⟨some "db", "child"⟩

/-- A handle somebody else holds on the child's stream. -/
def childHandle : Session :=
  ⟨"child", ⟨"scope2", "owner", none⟩, ⟨some "db", "child"⟩, (0, none), false⟩

/-- Ten units are held before and after four of them moved. -/
theorem conservation_ten :
    ∃ p, Reaches Call.NonNeg [] p ∧ heldTotal p.shared = 10 ∧
      heldTotal p.shared ≤ ownersTotal p.shared + unbackedTotal p.shared :=
  have h : Playable (works still) Call.NonNeg [.call openRoot, .perform 0, .call openFour,
      .perform 1, .perform 1, .perform 1] [] :=
    ⟨⟨by decide, by decide⟩, ⟨by decide, by decide⟩, trivial⟩
  ⟨_, reaches_played h, by decide,
    (conservation (fun _ h => h) (reaches_played h)).1⟩

/-- An allocation that failed after it moved its units: the child was closed,
through another handle, before it was resumed. -/
theorem open_child_may_fail_after_it_moved :
    ∃ p, Reaches Call.NonNeg [] p ∧ ∃ t ∈ p.threads, t.call = openFour ∧
      (∃ why, t.rest = .ret (.error (.closed why))) ∧
      ∃ d ∈ t.done, foldBalance (d.before.stream "root") = some 10 ∧
        foldBalance (d.after.stream "root") = some 6 ∧
        d.before.stream "child" = [] ∧ (p.shared.stream "child").length = 3 :=
  have h : Playable (works still) Call.NonNeg [.call openRoot, .perform 0, .call openFour,
      .perform 1, .call (.closeWith childHandle none none), .perform 2, .perform 1, .perform 1] [] :=
    ⟨⟨by decide, by decide⟩, ⟨by decide, by decide⟩, ⟨by decide, by decide⟩, trivial⟩
  ⟨_, reaches_played h, _, List.mem_cons_of_mem _ List.mem_cons_self, rfl, ⟨_, rfl⟩,
    _, List.mem_cons_self, by decide, by decide, by decide, by decide⟩

end AgentBlock.Knl
