/-
AgentBlock/Knl/BudgetSafety.lean

The budget of one stream, through any number of handles at once.

A run starts where a stream's first ledger entry has just been recorded, and
it is a grant.  From there on, whatever calls are made in whatever order and
however their store operations interleave, the fold is a balance that the
grants pay for, together with everything that was reserved out of it.

Main results:

* `budget_safety` — the balance, what was taken and what each call recorded;
* `open_child_may_record_nothing` — an allocation whose labels the validator
  refuses found the ledger and recorded neither entry on it.
-/
import AgentBlock.Knl.Ledger
import AgentBlock.Knl.System

namespace AgentBlock.Knl

open Interleaving Quota

/-- The stream's first ledger entry is a grant, and it has just landed. -/
def FirstGrant (events : List Current) : Prop :=
  ∃ pre g, events = pre ++ [g] ∧ (∀ e ∈ pre, e.kind ∉ BUDGET_KINDS) ∧
    g.kind = KIND_BUDGET_GRANTED ∧ 0 ≤ (rawAmount g).val

/-- What the log of a budgeted stream says: its balance and what was reserved
since the first grant are paid for by the grants; between two grants the
balance does not rise; a refusal does not move it. -/
structure LedgerSafe (events : List Current) : Prop where
  balance : ∃ b, foldBalance events = some b ∧ 0 ≤ b.val ∧
    b.val + reservedTotal events ≤ grantedTotal events
  falls : ∀ before during after, events = before ++ during ++ after →
    (∀ e ∈ during, e.kind ≠ KIND_BUDGET_GRANTED) → ∀ b, foldBalance before = some b →
    ∃ b', foldBalance (before ++ during) = some b' ∧ b'.val ≤ b.val
  refused : ∀ before e after, events = before ++ e :: after → e.kind = KIND_BUDGET_REFUSED →
    foldBalance (before ++ [e]) = foldBalance before

/-- The amount a call that returned took out of `s`: a reservation answered
`true`, or an allocation that handed out a child. -/
def taken (s : String) (t : CallThread) : ℤ :=
  match t.call, t.rest with
  | .reserve h n, .ret (.ok (.allowed true)) => if h.store.stream = s then n.val else 0
  | .openChild h _ _ _ _ allocation _ _, .ret (.ok (.session _)) =>
      if h.store.stream = s then allocation.amount.val else 0
  | _, _ => 0

/-- A reservation that reached the store recorded exactly one of the two
entries, and its answer says which; if the store failed it recorded none. -/
def RecordsReserve (s : String) (t : CallThread) : Prop :=
  ∀ h n r, t.call = .reserve h n → h.store.stream = s → h.closed = false → t.rest = .ret r →
    (∃ e : KnlError, e.isFault = true ∧ r = .error e ∧ appended s t.done = []) ∨
    (∃ ev, appended s t.done = [ev] ∧ ev.kind = KIND_BUDGET_RESERVED ∧
      r = .ok (.allowed true)) ∨
    (∃ ev, appended s t.done = [ev] ∧ ev.kind = KIND_BUDGET_REFUSED ∧
      r = .ok (.allowed false))

/-- An allocation that reached the store recorded exactly one of the two
entries, unless the child's stream was taken, the parent had ended or the
child's labels were not accepted: then it recorded none.  A refusal is
answered as one; a reservation is answered with the child, unless the store
fails or the child's stream was ended before the child was resumed from it. -/
def RecordsAllocation (db : Database) (s : String) (t : CallThread) : Prop :=
  ∀ h m childScope childStream owner allocation labels childStore r,
    t.call = .openChild h m childScope childStream owner allocation labels childStore →
    h.store.stream = s → childStore.stream = childStream → h.closed = false →
    Session.checkDatabase h.store.database childStore.database = .ok () → t.rest = .ret r →
    (appended s t.done = [] ∧ ((∃ e : KnlError, e.isFault = true ∧ r = .error e) ∨
      ((∃ d ∈ t.done, d.before.stream childStream ≠ []) ∧ ∃ why, r = .error (.validation why)) ∨
      ((∃ d ∈ t.done, Ended (d.before.stream s)) ∧ ∃ why, r = .error (.closed why)) ∨
      (∃ e, checkMeta (labels.map Json.obj) = .error e ∧ r = .error e))) ∨
    (∃ ev, appended s t.done = [ev] ∧ ev.kind = KIND_BUDGET_REFUSED ∧
      ∃ why, r = .error (.refused why)) ∨
    (∃ ev, appended s t.done = [ev] ∧ ev.kind = KIND_BUDGET_RESERVED ∧
      Reopened db childStream r)

/-! ### The log -/

section Log

variable {events more : List Current}

theorem FirstGrant.granted (h : FirstGrant events) : Granted events := by
  obtain ⟨pre, g, rfl, -, hg, -⟩ := h
  exact ⟨g, by simp, hg⟩

theorem FirstGrant.nonNeg (h : FirstGrant events) : NonNegLedger events := by
  obtain ⟨pre, g, rfl, hpre, -, hn⟩ := h
  intro e he hk
  rcases List.mem_append.mp he with he | he
  · exact absurd hk (hpre e he)
  · obtain rfl := List.mem_singleton.mp he
    exact hn

theorem FirstGrant.covered (h : FirstGrant events) : Covered cap (moves events) := by
  obtain ⟨pre, g, rfl, hpre, hg, -⟩ := h
  have hnil : moves pre = [] := List.filterMap_eq_nil_iff.mpr fun e he => move_other (hpre e he)
  rw [moves_append, hnil, moves_singleton, move_granted hg]
  exact Covered.nil.grant (amountOf_nonneg g)

theorem fromFirstGrant_append (h : Granted events) :
    fromFirstGrant (events ++ more) = fromFirstGrant events ++ more := by
  obtain ⟨e, he, hk⟩ := h
  have hne : events.dropWhile (fun e => decide (e.kind ≠ KIND_BUDGET_GRANTED)) ≠ [] := by
    rw [ne_eq, List.dropWhile_eq_nil_iff]
    intro hall
    exact absurd hk (by simpa using hall e he)
  unfold fromFirstGrant
  rw [List.dropWhile_append, if_neg (by simpa using hne)]

theorem reservedTotal_append (h : Granted events) :
    reservedTotal (events ++ more) = reservedTotal events +
      ((more.filter fun e => e.kind = KIND_BUDGET_RESERVED).map fun e => (rawAmount e).val).sum := by
  simp [reservedTotal, fromFirstGrant_append h]

theorem reserved_sum_nonneg (hn : NonNegLedger more) :
    0 ≤ ((more.filter fun e => e.kind = KIND_BUDGET_RESERVED).map
      fun e => (rawAmount e).val).sum := by
  refine List.sum_nonneg fun a ha => ?_
  obtain ⟨e, he, rfl⟩ := List.mem_map.mp ha
  obtain ⟨he, hk⟩ := List.mem_filter.mp he
  exact hn e he (by simp [BUDGET_KINDS, of_decide_eq_true hk])

/-- Nothing that lands lowers what was reserved. -/
theorem reservedTotal_mono (h : Granted events) (hn : NonNegLedger (events ++ more)) :
    reservedTotal events ≤ reservedTotal (events ++ more) := by
  rw [reservedTotal_append h]
  exact le_add_of_nonneg_right (reserved_sum_nonneg fun e he =>
    hn e (List.mem_append_right _ he))

theorem reservedTotal_nonneg (hn : NonNegLedger events) : 0 ≤ reservedTotal events :=
  reserved_sum_nonneg fun e he => hn e ((List.dropWhile_sublist _).subset he)

theorem ledgerSafe_of {db : Database} {s : String} (hc : Ledgered db s)
    (hn : NonNegLedger (db.stream s)) (hg : Granted (db.stream s)) : LedgerSafe (db.stream s) where
  balance := by
    obtain ⟨b, hb⟩ := hg.balance
    exact ⟨b, hb, foldBalance_nonneg _ b hb, ledger_bound hc hn hb⟩
  falls := fun before during after _ hno b hb => fold_mono hb hno
  refused := fun before e after _ hk => by rw [foldBalance_concat, foldStep_refused hk]

end Log

/-! ### What one call leaves on the stream -/

section Calls

variable {calls : Call → Prop} {db db' : Database} {done : Done} {r : Except KnlError Answer}
variable {h : Session} {n : I64}

theorem granted_grows {events more : List Current} (hg : Granted events)
    (hp : events <+: more) : Granted more := by
  obtain ⟨rest, rfl⟩ := hp
  exact hg.append_left

/-- A reservation on a stream that keeps a ledger: the store failed, or its one
operation appended the entry its answer says. -/
theorem reserve_records (hopen : h.closed = false) (hn : 0 ≤ n.val)
    (hg : Granted (db.stream h.store.stream))
    (hs : Returned (Moves calls) (body (.reserve h n)) db done r db') :
    (Quiet done ∧ ∃ e : KnlError, e.isFault = true ∧ r = .error e) ∨
    ∃ d ev, done = [d] ∧
      d.after.stream h.store.stream = d.before.stream h.store.stream ++ [ev] ∧
      ((ev.kind = KIND_BUDGET_RESERVED ∧ rawAmount ev = n ∧ r = .ok (.allowed true)) ∨
        (ev.kind = KIND_BUDGET_REFUSED ∧ r = .ok (.allowed false))) := by
  obtain ⟨db₁, a, db₂, rfl, hR, hsem, rfl⟩ := reserve_seen hopen hn hs
  have hg₁ : Granted (db₁.stream h.store.stream) :=
    granted_grows hg (Database.stream_grows (others_grow (fun _ _ => Moves.grows) hR))
  rcases reserve_cases hsem with ⟨e, he, rfl, rfl⟩ | ⟨hb, -⟩ | ⟨b, ev, c, hb, hle, hv, rfl, rfl⟩ |
    ⟨b, ev, c, hb, hlt, hv, rfl, rfl⟩
  · exact Or.inl ⟨by simp, e, he, rfl⟩
  · exact absurd hg₁ (foldBalance_eq_none.mp hb)
  · exact Or.inr ⟨_, ev, rfl, by simp, Or.inl ⟨kind_of_view hv, amount_of_view hv, rfl⟩⟩
  · exact Or.inr ⟨_, ev, rfl, by simp, Or.inr ⟨kind_of_view hv, rfl⟩⟩

variable {m : Minted} {childScope childStream owner : String} {allocation : Allocation}
variable {labels : Option Obj} {childStore : Store}

/-- An allocation on a stream that keeps a ledger: it wrote nothing and says
why, or its first operation appended the entry its answer says and the others
only read. -/
theorem openChild_records (hopen : h.closed = false) (hn : 0 ≤ allocation.amount.val)
    (hdb : Session.checkDatabase h.store.database childStore.database = .ok ())
    (hg : Granted (db.stream h.store.stream))
    (hs : Returned (Moves calls) (body (.openChild h m childScope childStream owner allocation
      labels childStore)) db done r db') :
    (Quiet done ∧ ((∃ e : KnlError, e.isFault = true ∧ r = .error e) ∨
      ((∃ d ∈ done, d.before.stream childStream ≠ []) ∧ ∃ why, r = .error (.validation why)) ∨
      ((∃ d ∈ done, Ended (d.before.stream h.store.stream)) ∧ ∃ why, r = .error (.closed why)) ∨
      (∃ e, checkMeta (labels.map Json.obj) = .error e ∧ r = .error e))) ∨
    ∃ d ev rest, done = d :: rest ∧ Quiet rest ∧
      d.after.stream h.store.stream = d.before.stream h.store.stream ++ [ev] ∧
      ((ev.kind = KIND_BUDGET_REFUSED ∧ ∃ why, r = .error (.refused why)) ∨
        (ev.kind = KIND_BUDGET_RESERVED ∧ rawAmount ev = allocation.amount ∧
          (childStore.stream = childStream → Reopened db' childStream r))) := by
  obtain ⟨d, rest, rfl, hq, hR, -, hall⟩ := openChild_seen hopen hn hdb hs
  have hg₁ : Granted (d.before.stream h.store.stream) :=
    granted_grows hg (Database.stream_grows (others_grow (fun _ _ => Moves.grows) hR))
  cases hall with
  | failed he hq' => exact Or.inl ⟨by simp [hq, hq'], Or.inl ⟨_, he, rfl⟩⟩
  | occupied hocc hq' =>
      exact Or.inl ⟨by simp [hq, hq'], Or.inr (Or.inl ⟨⟨d, by simp, hocc⟩, _, rfl⟩)⟩
  | ended _ hend hq' =>
      exact Or.inl ⟨by simp [hq, hq'], Or.inr (Or.inr (Or.inl ⟨⟨d, by simp, hend⟩, _, rfl⟩))⟩
  | labels _ hlab hq' =>
      exact Or.inl ⟨by simp [hq, hq'], Or.inr (Or.inr (Or.inr ⟨_, hlab, rfl⟩))⟩
  | @refused why b ev _ _ _ _ hv hrow =>
      exact Or.inr ⟨d, ev, rest, rfl, hq, by simp [hrow], Or.inl ⟨kind_of_view hv, why, rfl⟩⟩
  | opened hcov _ hall hre =>
      -- the stream keeps a ledger, so it is not the child's
      have hne : childStream ≠ h.store.stream := by
        rintro rfl
        obtain ⟨e, he, -⟩ := hg₁
        have hnil := hcov.1
        rw [Session.plan_child] at hnil
        rw [hnil] at he
        cases he
      have hchild : d.after.stream childStream = [hall.opened, hall.granted] :=
        (hall.stream_child hne).trans (congrArg (· ++ _) hcov.1)
      exact Or.inr ⟨d, hall.own, rest, rfl, hq, hall.stream_own hne,
        Or.inr ⟨kind_of_view hall.own_view, amount_of_view hall.own_view,
          fun hstore => reopen_records hstore hchild (kind_of_view hall.opening.1) hre⟩⟩

end Calls

/-! ### What a run keeps -/

/-- What a run that starts on a first grant keeps of the stream. -/
structure Budgeted (s : String) (db : Database) : Prop where
  granted : Granted (db.stream s)
  covered : Ledgered db s
  amounts : NonNegLedger (db.stream s)

/-- What an operation of a call on `s` added to what was reserved there. -/
def reservedBy (s : String) (c : Call) (d : Performed Database StoreOp StoreOp.Ans) : ℤ :=
  if c.stream = s then reservedTotal (d.after.stream s) - reservedTotal (d.before.stream s)
  else 0

section Run

variable {calls : Call → Prop} {db₀ db db' : Database} {s : String} {p : KnlPool}

theorem FirstGrant.budgeted (h : FirstGrant (db.stream s)) : Budgeted s db :=
  ⟨h.granted, h.covered, h.nonNeg⟩

theorem Budgeted.change {c : Call} (hc : Change c db db') (hn : c.NonNeg)
    (h : Budgeted s db) : Budgeted s db' where
  granted := granted_grows h.granted (Database.stream_grows hc.grows)
  covered := ledgered_change hc h.covered
  amounts := nonNeg_change hc hn.grantOk h.amounts

/-- What was reserved only grows. -/
theorem reservedTotal_le (hn : NonNegLedger (db'.stream s)) (hg : Granted (db.stream s))
    (hp : db <+: db') : reservedTotal (db.stream s) ≤ reservedTotal (db'.stream s) := by
  obtain ⟨more, hmore⟩ := Database.stream_grows (s := s) hp
  rw [← hmore] at hn ⊢
  exact reservedTotal_mono hg hn

theorem Reaches.budgeted (hcalls : ∀ c, calls c → c.NonNeg) (h₀ : FirstGrant (db₀.stream s))
    (hrun : Reaches calls db₀ p) : Budgeted s p.shared :=
  hrun.inv (fun c _ _ _ hc hch => Budgeted.change hch (hcalls c hc)) h₀.budgeted

/-- Each operation of a call adds to what was reserved, or leaves it. -/
theorem Reaches.reservedBy_nonneg (hcalls : ∀ c, calls c → c.NonNeg)
    (h₀ : FirstGrant (db₀.stream s)) (hrun : Reaches calls db₀ p) {t : CallThread}
    (ht : t ∈ p.threads) : ∀ d ∈ t.done, 0 ≤ reservedBy s t.call d := by
  intro d hd
  obtain ⟨h₁, h₂, h₃⟩ := hrun.performed ht d hd
  unfold reservedBy
  split
  swap
  · exact le_rfl
  have hamounts := (hrun.budgeted hcalls h₀).amounts
  have hafter : NonNegLedger (d.after.stream s) := fun e he =>
    hamounts e ((Database.stream_grows h₃).subset he)
  exact sub_nonneg.mpr
    (reservedTotal_le hafter (granted_grows h₀.granted (Database.stream_grows h₁)) h₂)

/-- A call whose first operation appended one reservation was charged that
much at least. -/
theorem le_bill {t : CallThread} {d : Performed Database StoreOp StoreOp.Ans} {rest : Done}
    {ev : Current} (hnn : ∀ d ∈ t.done, 0 ≤ reservedBy s t.call d) (hdone : t.done = d :: rest)
    (hs : t.call.stream = s) (hg : Granted (d.before.stream s))
    (hw : d.after.stream s = d.before.stream s ++ [ev]) (hk : ev.kind = KIND_BUDGET_RESERVED) :
    (rawAmount ev).val ≤ Pool.bill (reservedBy s) t := by
  have hd : reservedBy s t.call d = (rawAmount ev).val := by
    rw [reservedBy, if_pos hs, hw, reservedTotal_append hg]
    simp [hk]
  have hrest : 0 ≤ (rest.map (reservedBy s t.call)).sum := by
    refine List.sum_nonneg fun a ha => ?_
    obtain ⟨d', hd', rfl⟩ := List.mem_map.mp ha
    exact hnn d' (by simp [hdone, hd'])
  simp only [Pool.bill, hdone, List.map_cons, List.sum_cons, hd]
  omega

/-- **What a call took out of the stream was reserved there.** -/
theorem Reaches.taken_le (hcalls : ∀ c, calls c → c.NonNeg)
    (h₀ : FirstGrant (db₀.stream s)) (hrun : Reaches calls db₀ p) {t : CallThread}
    (ht : t ∈ p.threads) : taken s t ≤ Pool.bill (reservedBy s) t := by
  have hnn := hrun.reservedBy_nonneg hcalls h₀ ht
  -- a call that has not taken anything yet is billed for no less than that
  have hbill : 0 ≤ Pool.bill (reservedBy s) t := by
    refine List.sum_nonneg fun a ha => ?_
    obtain ⟨d, hd, rfl⟩ := List.mem_map.mp ha
    exact hnn d hd
  have hgranted : ∀ {db : Database}, db₀ <+: db → Granted (db.stream s) := fun hp =>
    granted_grows h₀.granted (Database.stream_grows hp)
  have hbefore : ∀ d ∈ t.done, Granted (d.before.stream s) := fun d hd =>
    hgranted (hrun.performed ht d hd).1
  unfold taken
  split
  · rename_i h n hcall hrest
    split
    swap
    · exact hbill
    subst s
    obtain ⟨db, hdb, -, hs⟩ := hrun.returned ht hrest
    rw [hcall] at hs
    obtain ⟨hopen, hn⟩ := reserve_answered hs
    rcases reserve_records hopen hn (hgranted (others_grow (fun _ _ => Moves.grows) hdb)) hs
      with ⟨-, e, -, hr⟩ | ⟨d, ev, hd, hw, ⟨hk, ha, -⟩ | ⟨-, hr⟩⟩
    · cases hr
    · rw [← ha]
      exact le_bill hnn hd (by rw [hcall]; rfl) (hbefore d (by simp [hd])) hw hk
    · cases hr
  · rename_i h m childScope childStream owner allocation labels childStore child hcall hrest
    split
    swap
    · exact hbill
    subst s
    obtain ⟨db, hdb, -, hs⟩ := hrun.returned ht hrest
    rw [hcall] at hs
    obtain ⟨hopen, hn, hdata⟩ := openChild_answered hs
    rcases openChild_records hopen hn hdata
      (hgranted (others_grow (fun _ _ => Moves.grows) hdb)) hs
      with ⟨-, hr⟩ | ⟨d, ev, rest, hd, -, hw, ⟨-, why, hr⟩ | ⟨hk, ha, -⟩⟩
    · simp at hr
    · cases hr
    · rw [← ha]
      exact le_bill hnn hd (by rw [hcall]; rfl) (hbefore d (by simp [hd])) hw hk
  · exact hbill

/-- Everything the calls took is bounded by what was granted. -/
theorem Reaches.taken_sum_le (hcalls : ∀ c, calls c → c.NonNeg)
    (h₀ : FirstGrant (db₀.stream s)) (hrun : Reaches calls db₀ p) :
    (p.threads.map (taken s)).sum ≤ grantedTotal (p.shared.stream s) := by
  obtain ⟨hg, hcov, hn⟩ := hrun.budgeted hcalls h₀
  obtain ⟨b, hb⟩ := hg.balance
  have hbill : (p.threads.map (taken s)).sum ≤
      (p.threads.map (Pool.bill (reservedBy s))).sum :=
    List.sum_le_sum fun t ht => hrun.taken_le hcalls h₀ ht
  have haccount := Pool.account (made_governed calls) (I := Budgeted s)
    (fun db => reservedTotal (db.stream s)) (reservedBy s)
    (fun db db' hm hi => by
      obtain ⟨c, -, hc, hch⟩ := Moves.change hm
      exact hi.change hch (hcalls c hc))
    (fun c op db a db' hm hi hI hsem => by
      have hch := change_of_sem hi hsem
      unfold reservedBy
      split
      · exact le_rfl
      · exact sub_nonneg.mpr (reservedTotal_le (hI.change hch (hcalls c hm.2)).amounts hI.granted
          hsem.appends))
    h₀.budgeted hrun
  have hstart := reservedTotal_nonneg h₀.nonNeg
  have hbound := ledger_bound hcov hn hb
  have := foldBalance_nonneg _ b hb
  omega

theorem appended_singleton {d : Performed Database StoreOp StoreOp.Ans} {rest : Done}
    {ev : Current} (hw : d.after.stream s = d.before.stream s ++ [ev]) (hq : Quiet rest) :
    appended s (d :: rest) = [ev] := by
  rw [appended_cons hw, appended_quiet hq]
  rfl

/-- **Budget safety of one stream**: in every database the calls can reach, the
log is safe, what the calls took was granted, and each call that reached the
store recorded what it was answered. -/
theorem budget_safety (hcalls : ∀ c, calls c → c.NonNeg) (h₀ : FirstGrant (db₀.stream s))
    (hrun : Reaches calls db₀ p) :
    LedgerSafe (p.shared.stream s) ∧
      (p.threads.map (taken s)).sum ≤ grantedTotal (p.shared.stream s) ∧
      ∀ t ∈ p.threads, RecordsReserve s t ∧ RecordsAllocation p.shared s t := by
  have hb := hrun.budgeted hcalls h₀
  have hgranted : ∀ {db : Database}, Others (Moves calls) db₀ db → Granted (db.stream s) :=
    fun hdb => granted_grows h₀.granted
      (Database.stream_grows (others_grow (fun _ _ => Moves.grows) hdb))
  refine ⟨ledgerSafe_of hb.covered hb.amounts hb.granted, hrun.taken_sum_le hcalls h₀,
    fun t ht => ⟨?_, ?_⟩⟩
  · intro h n r hcall hs hopen hrest
    subst s
    obtain ⟨db, hdb, ⟨-, hok⟩, hseen⟩ := hrun.returned ht hrest
    rw [hcall] at hseen hok
    rcases reserve_records hopen ((hcalls _ hok).2 n rfl) (hgranted hdb) hseen
      with ⟨hq, hr⟩ | ⟨d, ev, hd, hw, ⟨hk, -, hr⟩ | ⟨hk, hr⟩⟩
    · obtain ⟨e, he, hr⟩ := hr
      exact Or.inl ⟨e, he, hr, appended_quiet hq⟩
    · exact Or.inr (Or.inl ⟨ev, hd ▸ appended_singleton hw quiet_nil, hk, hr⟩)
    · exact Or.inr (Or.inr ⟨ev, hd ▸ appended_singleton hw quiet_nil, hk, hr⟩)
  · intro h m childScope childStream owner allocation labels childStore r hcall hs hstore hopen
      hdata hrest
    subst s
    obtain ⟨db, hdb, ⟨-, hok⟩, hseen⟩ := hrun.returned ht hrest
    rw [hcall] at hseen hok
    rcases openChild_records hopen ((hcalls _ hok).2 _ rfl) hdata (hgranted hdb) hseen
      with ⟨hq, hr⟩ | ⟨d, ev, rest, hd, hq, hw, ⟨hk, hr⟩ | ⟨hk, -, hr⟩⟩
    · exact Or.inl ⟨appended_quiet hq, hr⟩
    · exact Or.inr (Or.inl ⟨ev, hd ▸ appended_singleton hw hq, hk, hr⟩)
    · exact Or.inr (Or.inr ⟨ev, hd ▸ appended_singleton hw hq, hk, hr hstore⟩)

end Run

/-! ### Ten units -/

/-- A clock that stands still. -/
def still : Nat → Nat := fun _ => 0

/-- A stream that opened with ten units. -/
def openedWithTen : Database :=
  appendRows still [] "root"
    [openedEvent "owner" "scope" none, grantedEvent ⟨10, none, none⟩ "scope"]

/-- The handle it was opened through. -/
def rootHandle : Session :=
  ⟨"root", ⟨"scope", "owner", some ⟨10, none, none⟩⟩, ⟨some "db", "root"⟩, (0, none), false⟩

theorem firstGrant_openedWithTen : FirstGrant (openedWithTen.stream "root") :=
  ⟨[stamp (prepared (openedEvent "owner" "scope" none)) 1 0],
    stamp (prepared (grantedEvent ⟨10, none, none⟩ "scope")) 2 0, rfl, by decide, rfl, by decide⟩

/-- Of two reservations of six one is refused. -/
theorem budget_safety_ten :
    ∃ p, Reaches Call.NonNeg openedWithTen p ∧ (p.threads.map (taken "root")).sum = 6 ∧
      LedgerSafe (p.shared.stream "root") :=
  have h : Playable (works still) Call.NonNeg [.call (.reserve rootHandle 6),
      .call (.reserve rootHandle 6), .perform 1, .perform 0] openedWithTen :=
    ⟨⟨by decide, by decide⟩, ⟨by decide, by decide⟩, trivial⟩
  ⟨_, reaches_played h, by decide,
    (budget_safety (fun _ h => h) firstGrant_openedWithTen (reaches_played h)).1⟩

/-- An allocation whose labels are nested: it found the ledger, which covers
it, on an open parent and with a stream of its own for the child; it failed,
and the ledger has neither a reservation nor a refusal of it. -/
theorem open_child_may_record_nothing :
    ∃ p, Reaches Call.NonNeg openedWithTen p ∧ ∃ t ∈ p.threads,
      t.call = .openChild rootHandle ⟨"id", "minted"⟩ "scope2" "child" "owner" ⟨4, none⟩
        (some [("label", .obj [])]) ⟨some "db", "child"⟩ ∧
      Covers openedWithTen "root" "child" 4 ∧ (foldBalance (openedWithTen.stream "root")).isSome ∧
      (∃ why, t.rest = .ret (.error (.validation why))) ∧ appended "root" t.done = [] :=
  have h : Playable (works still) Call.NonNeg [.call (.openChild rootHandle ⟨"id", "minted"⟩
      "scope2" "child" "owner" ⟨4, none⟩ (some [("label", .obj [])]) ⟨some "db", "child"⟩),
      .perform 0] openedWithTen := ⟨⟨by decide, by decide⟩, trivial⟩
  ⟨_, reaches_played h, _, List.mem_singleton_self _, rfl,
    ⟨by decide, by decide, by decide⟩, by decide, ⟨_, rfl⟩, rfl⟩

end AgentBlock.Knl
