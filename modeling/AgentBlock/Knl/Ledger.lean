/-
AgentBlock/Knl/Ledger.lean

The ledger of a stream as a quota: what its events move, that the kernel's fold
is the quota's balance, and that every ledger the kernel can write is covered.

Main results:

* `foldBalance_eq_balance` — the fold over the events refines the balance of
  the quota they are moves of;
* `ledgered_change` — one operation of any call keeps every ledger covered;
* `nonNeg_change` — calls with non-negative amounts write no other;
* `ledger_bound` — what was granted bounds the balance and the reservations.
-/
import AgentBlock.Knl.Changes
import AgentBlock.Lib.Quota

namespace AgentBlock.Knl

open Interleaving Quota

/-! ### Events as moves -/

/-- The move an event is, by its kind. -/
def View.move (v : View) : Option (Move ℤ) :=
  let amount := (I64.max v.amount 0).val
  if v.kind = KIND_BUDGET_GRANTED then some (.grant amount)
  else if v.kind = KIND_BUDGET_RESERVED then some (.reserve amount)
  else if v.kind = KIND_BUDGET_SPENT then some (.spend amount)
  else if v.kind = KIND_BUDGET_REFUSED then some (.refuse amount)
  else none

/-- The moves of a log. -/
def moves (events : List Current) : List (Move ℤ) := events.filterMap fun e => (view e).move

/-- Where an `i64` balance stops rising. -/
abbrev cap : ℤ := I64.maxValue.val

theorem cap_nonneg : (0 : ℤ) ≤ cap := by decide

@[simp] theorem moves_nil : moves [] = [] := rfl

@[simp] theorem moves_append (events more : List Current) :
    moves (events ++ more) = moves events ++ moves more := List.filterMap_append

theorem moves_singleton (e : Current) : moves [e] = (view e).move.toList := by
  cases h : (view e).move <;> simp [moves, h]

/-- An event outside the ledger is no move. -/
theorem move_other {e : Current} (h : e.kind ∉ BUDGET_KINDS) : (view e).move = none := by
  simp only [BUDGET_KINDS, List.mem_cons, List.not_mem_nil, or_false, not_or] at h
  simp only [View.move, view]
  simp only [h, if_false]

section Kinds

variable {e : Current}

theorem move_granted (h : e.kind = KIND_BUDGET_GRANTED) :
    (view e).move = some (.grant (amountOf e).val) := by
  simp [View.move, view, h, amountOf_eq]

theorem move_reserved (h : e.kind = KIND_BUDGET_RESERVED) :
    (view e).move = some (.reserve (amountOf e).val) := by
  simp [View.move, view, h, amountOf_eq]

theorem move_spent (h : e.kind = KIND_BUDGET_SPENT) :
    (view e).move = some (.spend (amountOf e).val) := by
  simp [View.move, view, h, amountOf_eq]

theorem move_refused (h : e.kind = KIND_BUDGET_REFUSED) :
    (view e).move = some (.refuse (amountOf e).val) := by
  simp [View.move, view, h, amountOf_eq]

/-- An event is in the ledger under one of four kinds, or is no move. -/
theorem kind_cases (e : Current) :
    e.kind = KIND_BUDGET_GRANTED ∨ e.kind = KIND_BUDGET_RESERVED ∨
      e.kind = KIND_BUDGET_SPENT ∨ e.kind = KIND_BUDGET_REFUSED ∨ e.kind ∉ BUDGET_KINDS := by
  simp only [BUDGET_KINDS, List.mem_cons, List.not_mem_nil, or_false]
  tauto

end Kinds

/-- One event's effect on the balance is its move's. -/
theorem foldStep_eq_step {balance : Option I64} (hb : ∀ b ∈ balance, 0 ≤ b.val) (e : Current) :
    (foldStep balance e).map I64.val =
      ((view e).move.elim (balance.map I64.val) (step cap (balance.map I64.val))) := by
  have hn := amountOf_nonneg e
  have htake : (balance.map fun b => I64.max (b.saturatingSub (amountOf e)) 0).map I64.val =
      (balance.map I64.val).map fun b => max (b - (amountOf e).val) 0 := by
    cases balance with
    | none => rfl
    | some b => simp [I64.val_saturatingSub (hb b rfl) hn]
  rcases kind_cases e with hk | hk | hk | hk | hk
  · have h₀ : 0 ≤ (balance.getD 0).val := by
      cases balance with
      | none => simp
      | some b => exact hb b rfl
    rw [foldStep_granted hk, move_granted hk, Option.map_some, I64.val_saturatingAdd h₀ hn]
    cases balance <;> rfl
  · rw [foldStep_move (Or.inl hk), move_reserved hk, htake]
    rfl
  · rw [foldStep_move (Or.inr hk), move_spent hk, htake]
    rfl
  · rw [foldStep_refused hk, move_refused hk]
    rfl
  · rw [foldStep_other hk, move_other hk]
    rfl

/-- **The kernel's fold is the balance of the quota its events are moves of.** -/
theorem foldBalance_eq_balance (events : List Current) :
    (foldBalance events).map I64.val = balance cap (moves events) := by
  induction events using List.reverseRecOn with
  | nil => rfl
  | append_singleton events e ih =>
      rw [foldBalance_concat, foldStep_eq_step (foldBalance_nonneg events), moves_append,
        moves_singleton, ih]
      cases (view e).move with
      | none => simp
      | some m => rw [Option.toList_some, balance_concat, Option.elim_some]

theorem mem_balance {events : List Current} {b : I64} (h : foldBalance events = some b) :
    balance cap (moves events) = some b.val := by
  rw [← foldBalance_eq_balance, h]
  rfl

/-! ### Every ledger is covered -/

/-- The ledger of one stream is covered. -/
def Ledgered (db : Database) (s : String) : Prop := Covered cap (moves (db.stream s))

section Covered

variable {db db' : Database} {s t : String} {e : Current}

/-- One row keeps a ledger covered, if what it reserves is covered where it
lands. -/
theorem Ledgered.row (h : Ledgered db s)
    (hm : e.kind = KIND_BUDGET_RESERVED → t = s →
      ∀ b ∈ foldBalance (db.stream s), (amountOf e).val ≤ b.val) :
    Ledgered (db ++ [⟨t, e⟩]) s := by
  unfold Ledgered at h ⊢
  rw [stream_concat]
  split
  swap
  · simpa using h
  rw [moves_append, moves_singleton]
  have hn := amountOf_nonneg e
  rcases kind_cases e with hk | hk | hk | hk | hk
  · rw [move_granted hk]
    exact h.grant hn
  · rw [move_reserved hk]
    refine h.reserve hn fun b hb => ?_
    rw [← foldBalance_eq_balance] at hb
    obtain ⟨b', hb', rfl⟩ := Option.map_eq_some_iff.mp hb
    exact hm hk ‹_› b' hb'
  · rw [move_spent hk]
    exact h.spend hn
  · rw [move_refused hk]
    exact h.refuse hn
  · rw [move_other hk]
    simpa using h

/-- A row that reserves nothing keeps every ledger covered. -/
theorem Ledgered.row_of_ne (h : Ledgered db s) (hk : e.kind ≠ KIND_BUDGET_RESERVED) :
    Ledgered (db ++ [⟨t, e⟩]) s :=
  h.row fun h' => absurd h' hk

/-- **One operation of any call keeps every ledger covered.** -/
theorem ledgered_change {c : Call} (hc : Change c db db') (h : Ledgered db s) :
    Ledgered db' s := by
  cases hc with
  | none => exact h
  | @opened m owner grant labels store db ev gv hm ho hg =>
      have h₁ : Ledgered (db ++ [⟨store.stream, ev⟩]) s :=
        h.row_of_ne (by rw [kind_of_view ho.1]; simp)
      exact opened_rows (I := (Ledgered · s)) hg h₁ fun g e _ hv =>
        h₁.row_of_ne (by rw [kind_of_view hv.1]; simp)
  | granted _ _ _ hv => exact h.row_of_ne (by rw [kind_of_view hv.1]; simp)
  | noted hk =>
      refine h.row_of_ne fun hr => ?_
      rw [hr] at hk
      exact absurd hk (by decide)
  | reserved hn hb hle hv =>
      refine h.row fun _ ht b' hb' => ?_
      subst ht
      rw [amountOf_of_nonneg (by rw [amount_of_view hv]; exact hn), amount_of_view hv]
      rw [hb] at hb'
      cases hb'
      exact hle
  | refused _ _ _ _ hv => exact h.row_of_ne (by rw [kind_of_view hv]; simp)
  | spent _ _ hv => exact h.row_of_ne (by rw [kind_of_view hv]; simp)
  | @allocated hd m childScope childStream owner allocation labels childStore db db' hn hcov hall =>
      have h₁ : Ledgered (db ++ [⟨hd.store.stream, hall.own⟩]) s := by
        refine h.row fun _ ht b hb => ?_
        subst ht
        rw [amountOf_of_nonneg (by rw [amount_of_view hall.own_view]; exact hn),
          amount_of_view hall.own_view]
        exact hcov.2.2 b hb
      have h₂ := h₁.row_of_ne (t := childStream) (e := hall.opened)
        (by rw [kind_of_view hall.opening.1]; simp)
      have h₃ := h₂.row_of_ne (t := childStream) (e := hall.granted)
        (by rw [kind_of_view hall.granted_view]; simp)
      rw [hall.rows]
      simpa using h₃
  | closed hv | closedDetached hv => exact h.row_of_ne (by rw [kind_of_view hv]; simp)

end Covered

/-! ### Amounts -/

/-- No ledger entry of the log carries a negative amount. -/
def NonNegLedger (events : List Current) : Prop :=
  ∀ e ∈ events, e.kind ∈ BUDGET_KINDS → 0 ≤ (rawAmount e).val

/-- A kind the kernel leaves to its callers is not in the ledger. -/
theorem not_budget_of_not_kernelOnly {kind : String} (hk : isKernelOnly kind = false) :
    kind ∉ BUDGET_KINDS := by
  intro hb
  simp only [BUDGET_KINDS, List.mem_cons, List.not_mem_nil, or_false] at hb
  rcases hb with rfl | rfl | rfl | rfl <;> exact absurd hk (by decide)

theorem NonNegLedger.row {db : Database} {s t : String} {e : Current}
    (h : NonNegLedger (db.stream s))
    (he : t = s → e.kind ∈ BUDGET_KINDS → 0 ≤ (rawAmount e).val) :
    NonNegLedger (Database.stream (db ++ [⟨t, e⟩]) s) := by
  rw [stream_concat]
  intro e' hmem
  rcases List.mem_append.mp hmem with hmem | hmem
  · exact h e' hmem
  · split at hmem
    · obtain rfl := List.mem_singleton.mp hmem
      exact he ‹_›
    · cases hmem

theorem NonNegLedger.row_of_view {db : Database} {s t : String} {e : Current} {v : View}
    (h : NonNegLedger (db.stream s)) (hv : view e = v) (ha : 0 ≤ v.amount.val) :
    NonNegLedger (Database.stream (db ++ [⟨t, e⟩]) s) :=
  h.row fun _ _ => by rw [amount_of_view hv]; exact ha

/-- **A call whose grant is in order writes no negative amount.** -/
theorem nonNeg_change {c : Call} {db db' : Database} {s : String} (hc : Change c db db')
    (hok : c.GrantOk) (h : NonNegLedger (db.stream s)) : NonNegLedger (db'.stream s) := by
  cases hc with
  | none => exact h
  | @opened m owner grant labels store db ev gv hm ho hg =>
      have h₁ := h.row_of_view (t := store.stream) ho.1 le_rfl
      exact opened_rows (I := fun db => NonNegLedger (db.stream s)) hg h₁ fun g e hgr hv =>
        h₁.row_of_view hv.1 (hok.resolve_right (not_not.mpr hm) g hgr)
  | granted _ _ hn hv => exact h.row_of_view hv.1 (hn hok)
  | noted hk => exact h.row fun _ hr => absurd hr (not_budget_of_not_kernelOnly hk)
  | reserved hn _ _ hv | spent hn _ hv => exact h.row_of_view hv hn
  | refused _ hn _ _ hv => exact h.row_of_view hv hn
  | @allocated hd m childScope childStream owner allocation labels childStore db db' hn hcov hall =>
      have h₁ := h.row_of_view (t := hd.store.stream) hall.own_view hn
      have h₂ := h₁.row_of_view (t := childStream) hall.opening.1 le_rfl
      have h₃ := h₂.row_of_view (t := childStream) hall.granted_view hn
      rw [hall.rows]
      simpa using h₃
  | closed hv | closedDetached hv => exact h.row_of_view hv le_rfl

/-- Everything a log grants. -/
def grantedTotal (events : List Current) : ℤ :=
  ((events.filter fun e => e.kind = KIND_BUDGET_GRANTED).map fun e => (rawAmount e).val).sum

/-- A log from its first grant on. -/
def fromFirstGrant (events : List Current) : List Current :=
  events.dropWhile fun e => e.kind ≠ KIND_BUDGET_GRANTED

/-- Everything a log reserves after its first grant. -/
def reservedTotal (events : List Current) : ℤ :=
  (((fromFirstGrant events).filter fun e => e.kind = KIND_BUDGET_RESERVED).map
    fun e => (rawAmount e).val).sum

section Totals

variable {events : List Current}

theorem granted_moves (hn : NonNegLedger events) : granted (moves events) = grantedTotal events := by
  induction events with
  | nil => rfl
  | cons e rest ih =>
      have ih := ih fun e' he' => hn e' (List.mem_cons_of_mem _ he')
      unfold granted moves grantedTotal at ih ⊢
      rcases kind_cases e with hk | hk | hk | hk | hk
      · have hraw := hn e List.mem_cons_self (by simp [hk, BUDGET_KINDS])
        simp [move_granted hk, hk, ih, Move.granted, amountOf_of_nonneg hraw]
      · simp [move_reserved hk, hk, ih, Move.granted]
      · simp [move_spent hk, hk, ih, Move.granted]
      · simp [move_refused hk, hk, ih, Move.granted]
      · have hg : e.kind ≠ KIND_BUDGET_GRANTED := fun h => hk (by simp [h, BUDGET_KINDS])
        simp [move_other hk, hg, ih]

theorem sinceGrant_moves (events : List Current) :
    sinceGrant (moves events) = moves (fromFirstGrant events) := by
  induction events with
  | nil => rfl
  | cons e rest ih =>
      unfold sinceGrant moves fromFirstGrant at ih ⊢
      rcases kind_cases e with hk | hk | hk | hk | hk
      · simp [move_granted hk, hk, Move.isGrant]
      · simpa [move_reserved hk, hk, Move.isGrant] using ih
      · simpa [move_spent hk, hk, Move.isGrant] using ih
      · simpa [move_refused hk, hk, Move.isGrant] using ih
      · have hg : e.kind ≠ KIND_BUDGET_GRANTED := fun h => hk (by simp [h, BUDGET_KINDS])
        simpa [move_other hk, hg] using ih

theorem reserved_moves (hn : NonNegLedger events) :
    reserved (moves events) = reservedTotal events := by
  have hn' : NonNegLedger (fromFirstGrant events) := fun e he =>
    hn e ((List.dropWhile_sublist _).subset he)
  rw [reserved, sinceGrant_moves, reservedTotal]
  generalize fromFirstGrant events = rest at hn' ⊢
  induction rest with
  | nil => rfl
  | cons e rest ih =>
      have ih := ih fun e' he' => hn' e' (List.mem_cons_of_mem _ he')
      unfold moves at ih ⊢
      rcases kind_cases e with hk | hk | hk | hk | hk
      · simp [move_granted hk, hk, ih, Move.reserved]
      · have hraw := hn' e List.mem_cons_self (by simp [hk, BUDGET_KINDS])
        simp [move_reserved hk, hk, ih, Move.reserved, amountOf_of_nonneg hraw]
      · simp [move_spent hk, hk, ih, Move.reserved]
      · simp [move_refused hk, hk, ih, Move.reserved]
      · have hr : e.kind ≠ KIND_BUDGET_RESERVED := fun h => hk (by simp [h, BUDGET_KINDS])
        simp [move_other hk, hr, ih]

/-- **What a covered ledger granted bounds its balance and what it reserved
since the first grant.** -/
theorem ledger_bound {db : Database} {s : String} {b : I64} (h : Ledgered db s)
    (hn : NonNegLedger (db.stream s)) (hb : foldBalance (db.stream s) = some b) :
    b.val + reservedTotal (db.stream s) ≤ grantedTotal (db.stream s) := by
  rw [← reserved_moves hn, ← granted_moves hn]
  exact h.sound cap_nonneg b.val (mem_balance hb)

/-- Nothing but a grant raises the fold. -/
theorem fold_mono {more : List Current} {b : I64} (hb : foldBalance events = some b)
    (hno : ∀ e ∈ more, e.kind ≠ KIND_BUDGET_GRANTED) :
    ∃ b', foldBalance (events ++ more) = some b' ∧ b'.val ≤ b.val := by
  have hmore : ∀ m ∈ moves more, 0 ≤ m.amount ∧ m.isGrant = false := by
    intro m hm
    obtain ⟨e, he, hmove⟩ := List.mem_filterMap.mp hm
    have hn := amountOf_nonneg e
    rcases kind_cases e with hk | hk | hk | hk | hk
    · exact absurd hk (hno e he)
    · rw [move_reserved hk] at hmove
      cases hmove
      exact ⟨hn, rfl⟩
    · rw [move_spent hk] at hmove
      cases hmove
      exact ⟨hn, rfl⟩
    · rw [move_refused hk] at hmove
      cases hmove
      exact ⟨hn, rfl⟩
    · rw [move_other hk] at hmove
      cases hmove
  obtain ⟨b', hb', -, hle⟩ :=
    balance_mono (mem_balance hb) (foldBalance_nonneg events b hb) hmore
  rw [← moves_append, ← foldBalance_eq_balance] at hb'
  obtain ⟨c, hc, rfl⟩ := Option.map_eq_some_iff.mp hb'
  exact ⟨c, hc, hle⟩

end Totals

end AgentBlock.Knl
