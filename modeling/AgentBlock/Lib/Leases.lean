/-
AgentBlock/Lib/Leases.lean

A log of leases that are opened and closed by others than the one who grants
them: between the grant and the record of its opening, and between its end and
the record of its closing, anything else may be recorded.

    granted (`pend`)  →  opened on the log  →  may still close (`ends`)  →  closed

A grant is for an owner that has none, and there are at most `n` at a time.

Main results:

* `Inv.opened`, `Inv.closed`, `Inv.grant`, `Inv.take`, `Inv.shrink` — what may
  happen keeps the invariant;
* `NeverOverlap` — the leases of one owner never overlap, a field of it.
-/
import Mathlib.Data.List.Perm.Subperm
import Mathlib.Data.List.Nodup

namespace Leases

variable {ι κ : Type*}

inductive Ev (ι κ : Type*) where
  | opened (i : ι) (k : κ)
  | closed (i : ι) (k : κ)
  | other

def Ev.opening : Ev ι κ → Option (ι × κ)
  | opened i k => some (i, k)
  | _ => none

def Ev.closing : Ev ι κ → Option (ι × κ)
  | closed i k => some (i, k)
  | _ => none

section Defs

variable (log : List (Ev ι κ))

def opens : List (ι × κ) := log.filterMap Ev.opening

def closes : List (ι × κ) := log.filterMap Ev.closing

def Closed (k : κ) : Prop := k ∈ (closes log).map Prod.snd

instance [DecidableEq κ] : DecidablePred (Closed log) := fun k => by
  unfold Closed
  infer_instance

/-- The leases that are opened and not closed. -/
def live [DecidableEq κ] : List (ι × κ) := (opens log).filter fun o => ¬ Closed log o.2

/-- Between two openings of one owner the first lease is closed. -/
def NeverOverlap : Prop :=
  ∀ before i k mid k' after,
    log = before ++ .opened i k :: (mid ++ .opened i k' :: after) → Closed mid k

/-- No lease is closed before it is opened. -/
def ClosedLater : Prop :=
  log.Pairwise fun a b => ∀ i k, a = .closed i k → ∀ j, b ≠ .opened j k

end Defs

/-- A log, the leases granted and still to open, and those that may close. -/
structure State (ι κ : Type*) where
  log : List (Ev ι κ)
  pend : List (ι × κ)
  ends : List (ι × κ)

/-- What a grantor of at most `n` leases keeps. -/
structure Inv [DecidableEq κ] (n : ℕ) (s : State ι κ) : Prop where
  owners : ((s.pend ++ live s.log).map Prod.fst).Nodup
  room : (s.pend ++ live s.log).length ≤ n
  keys : ((s.pend ++ opens s.log).map Prod.snd).Nodup
  fresh : ∀ p ∈ s.pend, ¬ Closed s.log p.2
  held : ∀ e ∈ s.ends, e ∈ live s.log
  apart : (s.ends.map Prod.snd).Nodup
  once : ((closes s.log).map Prod.snd).Nodup
  later : ClosedLater s.log
  never : NeverOverlap s.log

/-! ### The log -/

section Log

variable {log : List (Ev ι κ)} {i : ι} {k : κ}

@[simp] theorem opens_opened : opens (log ++ [.opened i k]) = opens log ++ [(i, k)] :=
  List.filterMap_append ..

@[simp] theorem opens_closed : opens (log ++ [.closed i k]) = opens log := by
  simp [opens, Ev.opening]

@[simp] theorem opens_other : opens (log ++ [.other]) = opens log := by
  simp [opens, Ev.opening]

@[simp] theorem closes_opened : closes (log ++ [.opened i k]) = closes log := by
  simp [closes, Ev.closing]

@[simp] theorem closes_closed : closes (log ++ [.closed i k]) = closes log ++ [(i, k)] :=
  List.filterMap_append ..

@[simp] theorem closes_other : closes (log ++ [.other]) = closes log := by
  simp [closes, Ev.closing]

theorem mem_opens {o : ι × κ} : o ∈ opens log ↔ .opened o.1 o.2 ∈ log := by
  rw [opens, List.mem_filterMap]
  constructor
  · rintro ⟨ev, hev, ho⟩
    cases ev with
    | opened j l =>
        obtain rfl := Option.some.inj ho
        exact hev
    | closed j l => cases ho
    | other => cases ho
  · exact fun h => ⟨_, h, rfl⟩

theorem closed_iff : Closed log k ↔ ∃ i, .closed i k ∈ log := by
  rw [Closed, List.mem_map]
  constructor
  · rintro ⟨o, ho, rfl⟩
    obtain ⟨ev, hev, heq⟩ := List.mem_filterMap.mp ho
    cases ev with
    | opened j l => cases heq
    | closed j l =>
        obtain rfl := Option.some.inj heq
        exact ⟨_, hev⟩
    | other => cases heq
  · rintro ⟨i, h⟩
    exact ⟨(i, k), List.mem_filterMap.mpr ⟨_, h, rfl⟩, rfl⟩

@[simp] theorem closed_opened {l : κ} : Closed (log ++ [.opened i k]) l ↔ Closed log l := by
  simp [Closed]

@[simp] theorem closed_closed {l : κ} :
    Closed (log ++ [.closed i k]) l ↔ Closed log l ∨ l = k := by
  simp [Closed, or_comm, eq_comm]

@[simp] theorem closed_other {l : κ} : Closed (log ++ [.other]) l ↔ Closed log l := by
  simp [Closed]

section

variable [DecidableEq κ]

theorem mem_live {o : ι × κ} : o ∈ live log ↔ o ∈ opens log ∧ ¬ Closed log o.2 := by
  rw [live, List.mem_filter, decide_eq_true_iff]

theorem live_opened (h : ¬ Closed log k) :
    live (log ++ [.opened i k]) = live log ++ [(i, k)] := by
  simp [live, h]

theorem live_closed : live (log ++ [.closed i k]) = (live log).filter fun o => o.2 ≠ k := by
  rw [live, live, List.filter_filter, opens_closed]
  apply List.filter_congr
  intro o _
  rw [← Bool.decide_and, decide_eq_decide, closed_closed, not_or, and_comm]

@[simp] theorem live_other : live (log ++ [.other]) = live log := by
  simp [live]

end

theorem ClosedLater.concat (h : ClosedLater log) {ev : Ev ι κ}
    (hev : ∀ j k, ev = .opened j k → ¬ Closed log k) : ClosedLater (log ++ [ev]) := by
  refine List.pairwise_append.mpr ⟨h, List.pairwise_singleton _ _, ?_⟩
  intro a ha b hb i k hclosed j hopened
  obtain rfl := List.mem_singleton.mp hb
  exact hev j k hopened (closed_iff.mpr ⟨i, hclosed ▸ ha⟩)

theorem NeverOverlap.concat (h : NeverOverlap log) {ev : Ev ι κ}
    (hev : ∀ i k', ev = .opened i k' → ∀ before k mid,
      log = before ++ .opened i k :: mid → Closed mid k) : NeverOverlap (log ++ [ev]) := by
  intro before i k mid k' after heq
  rcases List.eq_nil_or_concat after with rfl | ⟨init, last, rfl⟩
  · -- The second opening is the one that lands.
    have hsplit : log ++ [ev] = (before ++ .opened i k :: mid) ++ [.opened i k'] := by
      rw [heq]
      simp
    obtain ⟨hlog, hlast⟩ := List.append_inj' hsplit rfl
    exact hev i k' (List.cons.inj hlast).1 before k mid hlog
  · have hsplit : log ++ [ev] =
        (before ++ .opened i k :: (mid ++ .opened i k' :: init)) ++ [last] := by
      rw [heq]
      simp
    exact h before i k mid k' init (List.append_inj' hsplit rfl).1

end Log

/-! ### What may happen -/

namespace Inv

variable [DecidableEq κ] {n : ℕ} {log : List (Ev ι κ)} {pend ends : List (ι × κ)} {i : ι} {k : κ}

theorem nodup_map_of_subperm {α β : Type*} {f : α → β} {l l' : List α} (h : l'.Subperm l)
    (hl : (l.map f).Nodup) : (l'.map f).Nodup := by
  obtain ⟨m, hperm, hsub⟩ := h
  exact (hperm.map f).nodup_iff.mp (hl.sublist (hsub.map f))

/-- Grants and endings may be forgotten, in any order. -/
theorem shrink (h : Inv n ⟨log, pend, ends⟩) {pend' ends' : List (ι × κ)}
    (hpend : pend'.Subperm pend) (hends : ends'.Subperm ends) : Inv n ⟨log, pend', ends'⟩ := by
  have hlive := (List.subperm_append_right (live log)).mpr hpend
  have hopens := (List.subperm_append_right (opens log)).mpr hpend
  exact ⟨nodup_map_of_subperm hlive h.owners, Nat.le_trans hlive.length_le h.room,
    nodup_map_of_subperm hopens h.keys,
    fun p hp => h.fresh p (hpend.subset hp), fun e he => h.held e (hends.subset he),
    nodup_map_of_subperm hends h.apart, h.once, h.later, h.never⟩

theorem other (h : Inv n ⟨log, pend, ends⟩) : Inv n ⟨log ++ [.other], pend, ends⟩ where
  owners := by simpa using h.owners
  room := by simpa using h.room
  keys := by simpa using h.keys
  fresh p hp := by simpa using h.fresh p hp
  held e he := by simpa using h.held e he
  apart := h.apart
  once := by simpa using h.once
  later := h.later.concat (by intro j k hev; cases hev)
  never := h.never.concat (by intro i k' hev; cases hev)

/-- The lease of an owner that has a grant is not live. -/
theorem no_live (h : Inv n ⟨log, (i, k) :: pend, ends⟩) {o : ι × κ} (ho : o ∈ live log) :
    o.1 ≠ i := by
  intro heq
  have howners := h.owners
  rw [List.cons_append, List.map_cons] at howners
  apply (List.nodup_cons.mp howners).1
  have hmem : o.1 ∈ (pend ++ live log).map Prod.fst :=
    List.mem_map_of_mem (List.mem_append_right _ ho)
  rwa [heq] at hmem

/-- A granted lease is opened, and may close from there on. -/
theorem opened (h : Inv n ⟨log, (i, k) :: pend, ends⟩) :
    Inv n ⟨log ++ [.opened i k], pend, (i, k) :: ends⟩ := by
  have hfresh : ¬ Closed log k := h.fresh (i, k) List.mem_cons_self
  have hperm : (pend ++ live (log ++ [Ev.opened i k])).Perm ((i, k) :: pend ++ live log) := by
    rw [live_opened hfresh, ← List.append_assoc]
    exact List.perm_append_singleton _ _
  have hopens : (pend ++ opens (log ++ [Ev.opened i k])).Perm ((i, k) :: pend ++ opens log) := by
    rw [opens_opened, ← List.append_assoc]
    exact List.perm_append_singleton _ _
  have hkeys : k ∉ (pend ++ opens log).map Prod.snd := (List.nodup_cons.mp h.keys).1
  constructor
  · exact (hperm.map _).nodup_iff.mpr h.owners
  · exact Nat.le_trans (Nat.le_of_eq hperm.length_eq) h.room
  · exact (hopens.map _).nodup_iff.mpr h.keys
  · intro p hp
    rw [closed_opened]
    exact h.fresh p (List.mem_cons_of_mem _ hp)
  · intro e he
    show e ∈ live (log ++ [.opened i k])
    rw [live_opened hfresh]
    rcases List.mem_cons.mp he with rfl | he
    · exact List.mem_append_right _ (List.mem_singleton_self _)
    · exact List.mem_append_left _ (h.held e he)
  · refine List.nodup_cons.mpr ⟨?_, h.apart⟩
    intro hmem
    obtain ⟨e, he, heq⟩ := List.mem_map.mp hmem
    apply hkeys
    have hopened : e.2 ∈ (pend ++ opens log).map Prod.snd :=
      List.mem_map_of_mem (List.mem_append_right _ (mem_live.mp (h.held e he)).1)
    rwa [heq] at hopened
  · rw [closes_opened]
    exact h.once
  · refine h.later.concat ?_
    intro j l hev
    obtain ⟨-, rfl⟩ := Ev.opened.inj hev
    exact hfresh
  · refine h.never.concat ?_
    intro j l' hev before l mid hlog
    change log = _ at hlog
    obtain ⟨rfl, -⟩ := Ev.opened.inj hev
    -- The earlier lease of the owner is closed, and not before it was opened.
    have hmem : (i, l) ∈ opens log := by
      rw [mem_opens, hlog]
      exact List.mem_append_right _ List.mem_cons_self
    have hclosed : Closed log l := by
      by_contra hnot
      exact h.no_live (mem_live.mpr ⟨hmem, hnot⟩) rfl
    obtain ⟨j, hj⟩ := closed_iff.mp hclosed
    have hlater : ClosedLater log := h.later
    rw [hlog] at hj hlater
    rcases List.mem_append.mp hj with hbefore | hj
    · exact absurd rfl
        ((List.pairwise_append.mp hlater).2.2 _ hbefore _ List.mem_cons_self j l rfl i)
    · rcases List.mem_cons.mp hj with heq | hmid
      · cases heq
      · exact closed_iff.mpr ⟨j, hmid⟩

/-- A lease that may close is closed. -/
theorem closed (h : Inv n ⟨log, pend, (i, k) :: ends⟩) :
    Inv n ⟨log ++ [.closed i k], pend, ends⟩ := by
  have hlive := mem_live.mp (h.held (i, k) List.mem_cons_self)
  have hsub : (pend ++ live (log ++ [Ev.closed i k])).Sublist (pend ++ live log) := by
    rw [live_closed]
    exact List.Sublist.append_left List.filter_sublist pend
  constructor
  · exact h.owners.sublist (hsub.map _)
  · exact Nat.le_trans hsub.length_le h.room
  · rw [opens_closed]
    exact h.keys
  · intro p hp
    rw [closed_closed, not_or]
    refine ⟨h.fresh p hp, ?_⟩
    intro heq
    -- A key that is granted has not been opened.
    have hkeys := h.keys
    rw [List.map_append] at hkeys
    exact (List.nodup_append.mp hkeys).2.2 _ (List.mem_map_of_mem hp) _
      (List.mem_map_of_mem hlive.1) heq
  · intro e he
    show e ∈ live (log ++ [.closed i k])
    rw [live_closed, List.mem_filter, decide_eq_true_iff]
    refine ⟨h.held e (List.mem_cons_of_mem _ he), ?_⟩
    intro heq
    apply (List.nodup_cons.mp h.apart).1
    have hmem : e.2 ∈ ends.map Prod.snd := List.mem_map_of_mem he
    rwa [heq] at hmem
  · exact (List.nodup_cons.mp h.apart).2
  · rw [closes_closed, List.map_append]
    refine List.nodup_append.mpr ⟨h.once, List.nodup_singleton _, ?_⟩
    rintro a ha b hb rfl
    obtain rfl := List.mem_singleton.mp hb
    exact hlive.2 ha
  · exact h.later.concat (by intro j l hev; cases hev)
  · exact h.never.concat (by intro j l hev; cases hev)

/-- A lease that is live may be closed by another. -/
theorem take (h : Inv n ⟨log, pend, ends⟩) (hlive : (i, k) ∈ live log)
    (hnew : k ∉ ends.map Prod.snd) : Inv n ⟨log, pend, (i, k) :: ends⟩ where
  owners := h.owners
  room := h.room
  keys := h.keys
  fresh := h.fresh
  held e he := by
    rcases List.mem_cons.mp he with rfl | he
    · exact hlive
    · exact h.held e he
  apart := List.nodup_cons.mpr ⟨hnew, h.apart⟩
  once := h.once
  later := h.later
  never := h.never

/-- Leases are granted: new ones, to owners that have none, where there is room. -/
theorem grant (h : Inv n ⟨log, pend, ends⟩) {more : List (ι × κ)}
    (howners : (more.map Prod.fst).Nodup)
    (hnone : ∀ p ∈ more, p.1 ∉ (pend ++ live log).map Prod.fst)
    (hroom : more.length + (pend ++ live log).length ≤ n)
    (hkeys : (more.map Prod.snd).Nodup)
    (hnew : ∀ p ∈ more, p.2 ∉ (pend ++ opens log).map Prod.snd)
    (hopen : ∀ p ∈ more, ¬ Closed log p.2) : Inv n ⟨log, more ++ pend, ends⟩ where
  owners := by
    rw [List.append_assoc, List.map_append]
    refine List.nodup_append.mpr ⟨howners, h.owners, ?_⟩
    rintro a ha b hb rfl
    obtain ⟨p, hp, rfl⟩ := List.mem_map.mp ha
    exact hnone p hp hb
  room := by
    rw [List.append_assoc, List.length_append]
    exact hroom
  keys := by
    rw [List.append_assoc, List.map_append]
    refine List.nodup_append.mpr ⟨hkeys, h.keys, ?_⟩
    rintro a ha b hb rfl
    obtain ⟨p, hp, rfl⟩ := List.mem_map.mp ha
    exact hnew p hp hb
  fresh p hp := by
    rcases List.mem_append.mp hp with hp | hp
    · exact hopen p hp
    · exact h.fresh p hp
  held := h.held
  apart := h.apart
  once := h.once
  later := h.later
  never := h.never

end Inv

end Leases
