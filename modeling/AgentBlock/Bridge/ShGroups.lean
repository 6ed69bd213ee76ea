/-
AgentBlock/Bridge/ShGroups.lean

When the registry of live groups is exact.

The registry is left on the straight path of an `sh.exec` only, so a call that
is dropped while it awaits leaves its entry behind, and one whose command has ended
keeps it until the output has too; and who has read a group id out of the registry
signals it after the lock is gone.  `Orderly` rules these out.  In a run of orderly
steps every entry belongs to the awaiting call it was made for, every id that is
still to be signalled to the running command it was read for (`Inv`), and from
that the rest.

Main results:

* `inv_step` — one orderly step keeps the invariant;
* `groups_exact` — so in every such run the registry is exact, and every signal
  is sent to the group of the command it was meant for, which is running.
-/
import AgentBlock.Bridge.Sh

namespace AgentBlock.Bridge

variable {s s' : Sh} {a : Act} {i j k w p q : ℕ} {e e' : Exec}

/-! ### The registry -/

namespace Groups

variable {g : Groups} {x : Group}

theorem mem_keys : p ∈ g.keys ↔ ∃ x, (p, x) ∈ g := by
  simp [keys]

@[simp] theorem mem_remove : (q, x) ∈ g.remove p ↔ (q, x) ∈ g ∧ q ≠ p := by
  simp [remove]

@[simp] theorem mem_insert {y : Group} :
    (q, x) ∈ g.insert p y ↔ (q = p ∧ x = y) ∨ ((q, x) ∈ g ∧ q ≠ p) := by
  simp [insert, List.mem_orderedInsert]

theorem mem_of_labelled {label : String} (h : g.labelled label = some (p, x)) :
    (p, x) ∈ g ∧ x.label = some label :=
  ⟨List.mem_of_find?_eq_some h, by simpa using List.find?_some h⟩

theorem mem_of_wasKilled (h : g.wasKilled p = true) : ∃ x, (p, x) ∈ g ∧ x.killed = true := by
  unfold wasKilled at h
  cases hfind : g.find? fun entry => decide (entry.1 = p) with
  | none => simp [hfind] at h
  | some entry =>
      have hp : entry.1 = p := by simpa using List.find?_some hfind
      have hmem := List.mem_of_find?_eq_some hfind
      rw [hfind] at h
      subst hp
      exact ⟨entry.2, hmem, h⟩

/-- Marking leaves the labels and the calls, and marks nothing but the group it
names. -/
theorem of_mem_markKilled (h : (q, x) ∈ g.markKilled p) :
    ∃ y, (q, y) ∈ g ∧ y.label = x.label ∧ y.call = x.call ∧
      (x.killed = true → y.killed = true ∨ q = p) := by
  obtain ⟨entry, hentry, heq⟩ := List.mem_map.mp h
  split at heq
  next hp =>
    cases heq
    exact ⟨entry.2, by rw [← hp]; exact hentry, rfl, rfl, fun _ => Or.inr rfl⟩
  next hp =>
    subst heq
    exact ⟨x, hentry, rfl, rfl, Or.inl⟩

theorem keys_markKilled : (g.markKilled p).keys = g.keys := by
  unfold keys markKilled
  rw [List.map_map]
  refine List.map_congr_left fun entry _ => ?_
  dsimp only [Function.comp]
  split
  next hp => exact hp.symm
  next => rfl

end Groups

/-! ### Awaiting calls -/

theorem exec?_eq_some : s.exec? i = some e ↔ s.execs i = some e ∧ e.status = .awaiting := by
  unfold Sh.exec?
  rw [Option.filter_eq_some_iff]
  simp

/-- The awaiting calls where one call is written down anew. -/
theorem exec?_update {s s' : Sh} {x : Option Exec} {j : ℕ}
    (hs : s'.execs = Function.update s.execs i x) :
    s'.exec? j = some e ↔ (j = i ∧ x = some e ∧ e.status = .awaiting) ∨
      (j ≠ i ∧ s.exec? j = some e) := by
  simp only [exec?_eq_some, hs]
  by_cases hj : j = i
  · subst hj
    simp
  · simp [hj]

/-! ### Orderly runs -/

/-- The command of the call `i`, in the group `p`, is running. -/
def Sh.Runs (s : Sh) (i p : ℕ) : Prop :=
  ∃ e, s.exec? i = some e ∧ e.pgid = some p ∧ e.ended = false

/-- The command of the call `i` has ended, and its output is awaited. -/
def Sh.Drains (s : Sh) (i : ℕ) : Prop := ∃ e, s.exec? i = some e ∧ e.ended = true

/-- The system gives a command a group id no running command has. -/
def Possible (s : Sh) : Act → Prop
  | .start _ (some p) _ => ∀ i, ¬ s.Runs i p
  | _ => True

/-- A signal has been chosen for the group of the call `i`, and not yet been
sent. -/
def Sh.Pending (s : Sh) (p i : ℕ) : Prop :=
  (∃ k, s.kills k = some (.took p i)) ∨ ∃ w sweep, s.sweeps w = some sweep ∧ (p, i) ∈ sweep.todo

/-- No command is given the group id of a call that awaits.  No command ends, and
no call is dropped, between the choice of its group and the signal; none is dropped
while its group is registered.  Nobody reads the registry for a group, or times out,
whose command has ended; and a group is not found at the end of the grace of an
`sh.kill` unless the command it took it for is running. -/
def Orderly (s : Sh) : Act → Prop
  | .start _ (some p) _ => ¬ s.Awaited p
  | .exit i | .finish i => ∀ p, ¬ s.Pending p i
  | .timeout i => ¬ s.Drains i ∧ ∀ p, ¬ s.Pending p i
  | .drop i => ∀ e p, s.exec? i = some e → e.pgid = some p →
      p ∉ s.groups.keys ∧ ¬ s.Pending p i
  | .take _ label => ∀ entry, s.groups.labelled label = some entry → ¬ s.Drains entry.2.call
  | .sweep _ _ => ∀ entry ∈ s.groups, ¬ s.Drains entry.2.call
  | .probe k alive graceOver => alive = true → graceOver = true →
      ∀ p i, s.kills k = some (.looking p i) → s.Runs i p
  | _ => True

/-- What every state of an orderly run satisfies. -/
structure Inv (s : Sh) : Prop where
  /-- An entry belongs to the awaiting call it was made for. -/
  entry : ∀ p x, (p, x) ∈ s.groups → ∃ e, s.exec? x.call = some e ∧ e.pgid = some p ∧
    e.label = x.label ∧ (x.killed = true → e.marked = true)
  unique : ∀ i j e e' p, s.exec? i = some e → s.exec? j = some e' →
    e.pgid = some p → e'.pgid = some p → i = j
  all : s.emptied = false → ∀ p, s.Awaited p → p ∈ s.groups.keys
  pending : ∀ p i, s.Pending p i → s.Runs i p
  killed : ∀ i e, s.execs i = some e → e.status = .answered true → e.marked = true

theorem inv_init : Inv Sh.init where
  entry _ _ h := absurd h List.not_mem_nil
  unique _ _ _ _ _ h := nomatch h
  all _ _ h := by obtain ⟨_, _, h, _⟩ := h; cases h
  pending _ _ h := by
    rcases h with ⟨_, h⟩ | ⟨_, _, h, _⟩ <;> cases h
  killed _ _ h := nomatch h

theorem Inv.awaited_of_mem_keys (h : Inv s) (hp : p ∈ s.groups.keys) : s.Awaited p := by
  obtain ⟨x, hx⟩ := Groups.mem_keys.mp hp
  obtain ⟨e, he, hpgid, -⟩ := h.entry p x hx
  exact ⟨x.call, e, he, hpgid⟩

/-- An entry whose command has not ended is of a running one. -/
theorem Inv.runs (h : Inv s) {x : Group} (hx : (p, x) ∈ s.groups) (hends : ¬ s.Drains x.call) :
    s.Runs x.call p := by
  obtain ⟨e, he, hpgid, -⟩ := h.entry p x hx
  exact ⟨e, he, hpgid, Bool.eq_false_iff.mpr fun hended => hends ⟨e, he, hended⟩⟩

/-- **A call that starts** has the one entry of its group. -/
theorem inv_start (h : Inv s) {pgid : Option ℕ} {label : Option String}
    (hfresh : Orderly s (.start i pgid label)) (hs : step s (.start i pgid label) = some s') :
    Inv s' := by
  simp only [step] at hs
  split at hs
  case isFalse => cases hs
  next hnew =>
    have hold : ∀ {j x}, s.exec? j = some x → j ≠ i := by
      rintro j x hx rfl
      rw [exec?_eq_some, hnew] at hx
      cases hx.1
    have hexecs : s'.execs = Function.update s.execs i
        (some { pgid, label, status := .awaiting, ended := false, marked := false }) := by
      cases hs
      rfl
    have hpending : ∀ p i, s'.Pending p i ↔ s.Pending p i := by cases hs; exact fun _ _ => Iff.rfl
    have hemptied : s'.emptied = s.emptied := by cases hs; rfl
    have hgroups : ∀ q x, (q, x) ∈ s'.groups ↔
        (pgid = some q ∧ x = { label, killed := false, call := i }) ∨
          ((q, x) ∈ s.groups ∧ pgid ≠ some q) := by
      intro q x
      cases hs
      cases pgid with
      | none => simp
      | some p =>
          dsimp only
          rw [rememberGroup, Groups.mem_insert, Option.some_inj, ne_comm, ne_eq, ne_eq,
            Option.some_inj, eq_comm (a := q)]
    have hexec : ∀ j x, s'.exec? j = some x ↔
        (j = i ∧ x = { pgid, label, status := .awaiting, ended := false, marked := false }) ∨
          s.exec? j = some x := by
      intro j x
      rw [exec?_update hexecs]
      constructor
      · rintro (⟨hj, hx, -⟩ | ⟨-, hx⟩)
        · exact Or.inl ⟨hj, (Option.some_inj.mp hx).symm⟩
        · exact Or.inr hx
      · rintro (⟨hj, rfl⟩ | hx)
        · exact Or.inl ⟨hj, rfl, rfl⟩
        · exact Or.inr ⟨hold hx, hx⟩
    -- the group id is new, so no entry of an awaiting call is overwritten
    have hnot : ∀ {p}, s.Awaited p → pgid ≠ some p := by
      rintro p hp rfl
      exact hfresh hp
    refine ⟨fun p x hx => ?_, fun j j' x x' p hx hx' hp hp' => ?_, fun hno p hp => ?_,
      fun p j hp => ?_, fun j x hx => ?_⟩
    · rcases (hgroups p x).mp hx with ⟨hpgid, rfl⟩ | ⟨hx, -⟩
      · exact ⟨_, (hexec _ _).mpr (Or.inl ⟨rfl, rfl⟩), hpgid, rfl, nofun⟩
      · obtain ⟨y, hy, hrest⟩ := h.entry p x hx
        exact ⟨y, (hexec _ y).mpr (Or.inr hy), hrest⟩
    · rcases (hexec _ _).mp hx with ⟨rfl, rfl⟩ | hx <;>
        rcases (hexec _ _).mp hx' with ⟨rfl, rfl⟩ | hx'
      · rfl
      · exact absurd hp (hnot ⟨_, _, hx', hp'⟩)
      · exact absurd hp' (hnot ⟨_, _, hx, hp⟩)
      · exact h.unique j j' x x' p hx hx' hp hp'
    · obtain ⟨j, x, hx, hp⟩ := hp
      rcases (hexec j x).mp hx with ⟨-, rfl⟩ | hx
      · exact Groups.mem_keys.mpr ⟨_, (hgroups p _).mpr (Or.inl ⟨hp, rfl⟩)⟩
      · have hawaited : s.Awaited p := ⟨j, x, hx, hp⟩
        obtain ⟨y, hy⟩ := Groups.mem_keys.mp (h.all (hemptied ▸ hno) p hawaited)
        exact Groups.mem_keys.mpr ⟨y, (hgroups p y).mpr (Or.inr ⟨hy, hnot hawaited⟩)⟩
    · obtain ⟨x, hx, hp⟩ := h.pending p j ((hpending p j).mp hp)
      exact ⟨x, (hexec j x).mpr (Or.inr hx), hp⟩
    · rw [hexecs] at hx
      by_cases hj : j = i
      · subst hj
        rw [Function.update_self] at hx
        cases hx
        exact nofun
      · rw [Function.update_of_ne hj] at hx
        exact h.killed j x hx

/-- **A call that ends**, however it does: its entry is not there any more. -/
theorem inv_end (h : Inv s) (he : s.exec? i = some e)
    (hpending : ∀ p, e.pgid = some p → ¬ s.Pending p i) (hstatus : e'.status ≠ .awaiting)
    (hmarked : e'.status = .answered true → e'.marked = true) {groups : Groups}
    (hgroups : ∀ q x, (q, x) ∈ groups ↔ (q, x) ∈ s.groups ∧ e.pgid ≠ some q) :
    Inv { s with groups, execs := Function.update s.execs i (some e') } := by
  have hexec : ∀ j x, Sh.exec? { s with
        groups, execs := Function.update s.execs i (some e') } j = some x ↔
      j ≠ i ∧ s.exec? j = some x := by
    intro j x
    rw [exec?_update rfl]
    refine ⟨fun hx => hx.resolve_left ?_, Or.inr⟩
    rintro ⟨-, hx, hawaiting⟩
    cases hx
    exact hstatus hawaiting
  refine ⟨fun p x hx => ?_, fun j j' x x' p hx hx' => ?_, fun hemptied p hp => ?_,
    fun p j hp => ?_, fun j x hx => ?_⟩
  · obtain ⟨hx, hne⟩ := (hgroups p x).mp hx
    obtain ⟨y, hy, hp, hrest⟩ := h.entry p x hx
    refine ⟨y, (hexec _ y).mpr ⟨?_, hy⟩, hp, hrest⟩
    rintro rfl
    rw [he] at hy
    cases hy
    exact hne hp
  · exact h.unique j j' x x' p ((hexec _ _).mp hx).2 ((hexec _ _).mp hx').2
  · obtain ⟨j, x, hx, hp⟩ := hp
    obtain ⟨hj, hx⟩ := (hexec j x).mp hx
    obtain ⟨y, hy⟩ := Groups.mem_keys.mp (h.all hemptied p ⟨j, x, hx, hp⟩)
    refine Groups.mem_keys.mpr ⟨y, (hgroups p y).mpr ⟨hy, fun hpe => ?_⟩⟩
    -- an awaited group is another call's, and so is not the one taken out
    exact hj (h.unique _ _ _ _ _ hx he hp hpe)
  · -- the call that ends is none that a signal is to be sent for
    obtain ⟨x, hx, hpx, hruns⟩ := h.pending p j hp
    refine ⟨x, (hexec j x).mpr ⟨?_, hx⟩, hpx, hruns⟩
    rintro rfl
    rw [he] at hx
    cases hx
    exact hpending p hpx hp
  · dsimp only at hx
    by_cases hj : j = i
    · subst hj
      rw [Function.update_self] at hx
      cases hx
      exact hmarked
    · rw [Function.update_of_ne hj] at hx
      exact h.killed j x hx

/-- The straight path of a call. -/
theorem inv_leave (h : Inv s) (he : s.exec? i = some e)
    (hpending : ∀ p, e.pgid = some p → ¬ s.Pending p i) {status : Bool → ExecStatus}
    (hstatus : ∀ killed, status killed ≠ .awaiting)
    (hkilled : ∀ killed, status killed = .answered true → killed = true) :
    Inv (s.leave i e status) := by
  unfold Sh.leave
  split
  next p hp =>
    refine inv_end h he hpending (hstatus _) (fun hanswered => ?_) fun q x => ?_
    · -- only its own entry says so, and that entry's call is this one
      obtain ⟨x, hx, hx'⟩ := Groups.mem_of_wasKilled (hkilled _ hanswered)
      obtain ⟨y, hy, hpy, -, hmarked⟩ := h.entry p x hx
      obtain rfl := h.unique _ _ _ _ _ he hy hp hpy
      rw [he] at hy
      cases hy
      exact hmarked hx'
    · rw [hp, ne_comm, ne_eq, Option.some_inj]
      exact Groups.mem_remove
  next hp =>
    refine inv_end h he hpending (hstatus _) (fun hanswered => ?_) fun q x => ?_
    · cases hkilled _ hanswered
    · simp [hp]

/-- A call that is dropped leaves the registry as it is. -/
theorem inv_drop (h : Inv s) (hordered : Orderly s (.drop i))
    (hs : step s (.drop i) = some s') : Inv s' := by
  obtain ⟨e, he, rfl⟩ := Option.map_eq_some_iff.mp hs
  have hstatus : ({ e with status := .dropped } : Exec).status ≠ .awaiting := nofun
  refine inv_end h he (fun p hp => (hordered e p he hp).2) hstatus nofun fun q x => ?_
  refine ⟨fun hx => ⟨hx, fun hp => (hordered e q he hp).1 ?_⟩, And.left⟩
  exact Groups.mem_keys.mpr ⟨x, hx⟩

/-- A step that only notes something of the awaiting calls (`f`), and of the groups
in the registry whether they were killed. -/
theorem inv_note (h : Inv s) {f : ℕ → Exec → Exec}
    (hexec : ∀ j x, s'.exec? j = some x ↔ ∃ y, s.exec? j = some y ∧ x = f j y)
    (hpgid : ∀ j y, (f j y).pgid = y.pgid) (hlabel : ∀ j y, (f j y).label = y.label)
    (hgroups : ∀ q x, (q, x) ∈ s'.groups → ∃ y, (q, y) ∈ s.groups ∧ y.label = x.label ∧
      y.call = x.call ∧ (x.killed = true → ∀ e, s.exec? x.call = some e → e.pgid = some q →
        (y.killed = true → e.marked = true) → (f x.call e).marked = true))
    (hkeys : s'.groups.keys = s.groups.keys) (hemptied : s'.emptied = s.emptied)
    (hpending : ∀ q j, s'.Pending q j → s'.Runs j q)
    (hkilled : ∀ i e, s'.execs i = some e → e.status = .answered true → e.marked = true) :
    Inv s' := by
  refine ⟨fun q x hx => ?_, fun i j e e' q hi hj hq hq' => ?_, fun hno q hq => ?_, hpending,
    hkilled⟩
  · obtain ⟨y, hy, hyl, hyc, hmarked⟩ := hgroups q x hx
    obtain ⟨e, he, hq, hel, hye⟩ := h.entry q y hy
    rw [hyc] at he
    exact ⟨_, (hexec _ _).mpr ⟨e, he, rfl⟩, (hpgid _ e).trans hq,
      (hlabel _ e).trans (hel.trans hyl), fun hx' => hmarked hx' e he hq hye⟩
  · obtain ⟨y, hy, rfl⟩ := (hexec i e).mp hi
    obtain ⟨y', hy', rfl⟩ := (hexec j e').mp hj
    rw [hpgid] at hq hq'
    exact h.unique i j y y' q hy hy' hq hq'
  · obtain ⟨j, x, hx, hq⟩ := hq
    obtain ⟨y, hy, rfl⟩ := (hexec j x).mp hx
    rw [hpgid] at hq
    rw [hkeys]
    exact h.all (hemptied ▸ hno) q ⟨j, y, hy, hq⟩

/-- **A command ends** before its output: no signal was to be sent to it. -/
theorem inv_exit (h : Inv s) (hordered : Orderly s (.exit i))
    (hs : step s (.exit i) = some s') : Inv s' := by
  obtain ⟨e, he, rfl⟩ := Option.map_eq_some_iff.mp hs
  have hawaiting := (exec?_eq_some.mp he).2
  have hexec : ∀ j x, Sh.exec? { s with
        execs := Function.update s.execs i (some { e with ended := true }) } j = some x ↔
      ∃ y, s.exec? j = some y ∧ x = if j = i then { y with ended := true } else y := by
    intro j x
    rw [exec?_update rfl]
    by_cases hj : j = i
    · subst hj
      simp only [he, true_and, Option.some_inj, exists_eq_left', if_true, ne_eq, not_true,
        false_and, or_false]
      exact ⟨fun h => h.1.symm, fun h => ⟨h.symm, h ▸ hawaiting⟩⟩
    · simp [hj]
  refine inv_note h hexec (fun j y => ?_) (fun j y => ?_) (fun q x hx => ?_) rfl rfl
    (fun q j hq => ?_) fun j x hx hanswered => ?_
  · split <;> rfl
  · split <;> rfl
  · refine ⟨x, hx, rfl, rfl, fun hx' e' _ _ hmarked => ?_⟩
    split <;> exact hmarked hx'
  · obtain ⟨x, hx, hpgid, hruns⟩ := h.pending q j hq
    have hj : j ≠ i := by
      rintro rfl
      exact hordered q hq
    exact ⟨x, (hexec j x).mpr ⟨x, hx, (if_neg hj).symm⟩, hpgid, hruns⟩
  · dsimp only at hx
    by_cases hj : j = i
    · subst hj
      rw [Function.update_self] at hx
      cases hx
      cases hawaiting.symm.trans hanswered
    · rw [Function.update_of_ne hj] at hx
      exact h.killed j x hx hanswered

theorem exec?_markExecs (hs : s'.execs = s.markExecs i) (j : ℕ) (x : Exec) :
    s'.exec? j = some x ↔ ∃ y, s.exec? j = some y ∧
      x = if j = i then { y with marked := true } else y := by
  simp only [exec?_eq_some, hs, Sh.markExecs, Option.map_eq_some_iff]
  constructor
  · rintro ⟨⟨y, hy, rfl⟩, hawaiting⟩
    have hy' : y.status = .awaiting := by
      split at hawaiting
      next hyes => exact hyes.1
      next => exact hawaiting
    exact ⟨y, ⟨hy, hy'⟩, by simp [hy']⟩
  · rintro ⟨y, ⟨hy, hawaiting⟩, rfl⟩
    refine ⟨⟨y, hy, by simp [hawaiting]⟩, ?_⟩
    split <;> exact hawaiting

/-- **What is taken is marked**, in the registry and at its call. -/
theorem inv_mark (h : Inv s) {x : Group} (hp : (p, x) ∈ s.groups) (hends : ¬ s.Drains x.call)
    (hgroups : s'.groups = s.groups.markKilled p) (hexecs : s'.execs = s.markExecs x.call)
    (hemptied : s'.emptied = s.emptied)
    (hpending : ∀ q j, s'.Pending q j → (q = p ∧ j = x.call) ∨ s.Pending q j) : Inv s' := by
  have hexec := exec?_markExecs hexecs
  refine inv_note h hexec (fun j y => ?_) (fun j y => ?_) (fun q y hy => ?_) ?_ hemptied
    (fun q j hq => ?_) fun j e he hanswered => ?_
  · split <;> rfl
  · split <;> rfl
  · obtain ⟨z, hz, hlabel, hcall, hkilled⟩ := Groups.of_mem_markKilled (hgroups ▸ hy)
    refine ⟨z, hz, hlabel, hcall, fun hy' e he hq hmarked => ?_⟩
    split
    next => rfl
    next hne =>
      rcases hkilled hy' with hz' | rfl
      · exact hmarked hz'
      · -- the group that was taken is this one, and so is the call
        obtain ⟨e', he', hq', -⟩ := h.entry q x hp
        exact absurd (h.unique _ _ _ _ _ he he' hq hq') hne
  · rw [hgroups, Groups.keys_markKilled]
  · have hruns : s.Runs j q := by
      rcases hpending q j hq with ⟨rfl, rfl⟩ | hq
      · exact h.runs hp hends
      · exact h.pending q j hq
    obtain ⟨e, he, hpgid, hended⟩ := hruns
    refine ⟨_, (hexec j _).mpr ⟨e, he, rfl⟩, ?_, ?_⟩
    · split <;> exact hpgid
    · split <;> exact hended
  · rw [hexecs] at he
    obtain ⟨y, hy, rfl⟩ := Option.map_eq_some_iff.mp he
    by_cases hyes : y.status = .awaiting ∧ j = x.call
    · rw [if_pos hyes]
    · rw [if_neg hyes] at hanswered ⊢
      exact h.killed j y hy hanswered

/-- A step that leaves the calls as they are, and of the registry what it does
not empty. -/
theorem inv_frame (h : Inv s) (hexecs : s'.execs = s.execs)
    (hgroups : ∀ q x, (q, x) ∈ s'.groups → (q, x) ∈ s.groups)
    (hemptied : s'.emptied = false → s.emptied = false ∧ s'.groups = s.groups)
    (hpending : ∀ p i, s'.Pending p i → s.Runs i p) : Inv s' := by
  have hexec : ∀ i, s'.exec? i = s.exec? i := fun i => by rw [Sh.exec?, hexecs, Sh.exec?]
  have hawaited : ∀ p, s'.Awaited p ↔ s.Awaited p := fun p => by
    simp only [Sh.Awaited, hexec]
  refine ⟨fun p x hx => ?_, fun i j e e' p hi hj => ?_, fun hno p hp => ?_,
    fun p i hp => ?_, fun i e he => ?_⟩
  · simp only [hexec]
    exact h.entry p x (hgroups p x hx)
  · rw [hexec] at hi hj
    exact h.unique i j e e' p hi hj
  · obtain ⟨hno, hsame⟩ := hemptied hno
    rw [hsame]
    exact h.all hno p ((hawaited p).mp hp)
  · simp only [Sh.Runs, hexec]
    exact hpending p i hp
  · exact h.killed i e (hexecs ▸ he)

/-- An `sh.kill` has to signal what it took, and nothing else. -/
theorem pending_kill {kill : Kill} {groups : Groups} {execs : ℕ → Option Exec}
    (h : Sh.Pending { s with
      groups, execs, kills := Function.update s.kills k (some kill) } p i) :
    kill = .took p i ∨ s.Pending p i := by
  rcases h with ⟨j, hj⟩ | hp
  · dsimp only at hj
    by_cases hjk : j = k
    · subst hjk
      rw [Function.update_self] at hj
      exact Or.inl (Option.some_inj.mp hj)
    · rw [Function.update_of_ne hjk] at hj
      exact Or.inr (Or.inl ⟨j, hj⟩)
  · exact Or.inr (Or.inr hp)

/-- A step of an `sh.kill` that only moves it on. -/
theorem inv_kill (h : Inv s) {kill : Kill} (hkill : ∀ p i, kill ≠ .took p i) :
    Inv { s with kills := Function.update s.kills k (some kill) } := by
  refine inv_frame h rfl (fun _ _ hx => hx) (fun hno => ⟨hno, rfl⟩)
    fun p i hp => h.pending p i ?_
  rcases pending_kill hp with rfl | hp
  · exact absurd rfl (hkill p i)
  · exact hp

/-- A sweep has to signal what it read, and nothing else. -/
theorem pending_sweep {sweep : Sweep} {groups : Groups} {emptied : Bool}
    (h : Sh.Pending { s with
      groups, emptied, sweeps := Function.update s.sweeps w (some sweep) } p i) :
    (p, i) ∈ sweep.todo ∨ s.Pending p i := by
  rcases h with hp | ⟨v, other, hv, hp⟩
  · exact Or.inr (Or.inl hp)
  · dsimp only at hv
    by_cases hvw : v = w
    · subst hvw
      rw [Function.update_self] at hv
      cases hv
      exact Or.inl hp
    · rw [Function.update_of_ne hvw] at hv
      exact Or.inr (Or.inr ⟨v, other, hv, hp⟩)

/-- **A group is taken** by an `sh.kill`. -/
theorem inv_take (h : Inv s) {label : String} (hordered : Orderly s (.take k label))
    (hs : step s (.take k label) = some s') : Inv s' := by
  simp only [step] at hs
  split at hs
  case isFalse => cases hs
  split at hs
  next p x groups htake =>
    obtain ⟨entry, hentry, heq⟩ := Option.map_eq_some_iff.mp htake
    cases heq
    cases hs
    refine inv_mark h (Groups.mem_of_labelled hentry).1 (hordered _ hentry) rfl rfl rfl
      fun q j hq => ?_
    rcases pending_kill hq with hkill | hq
    · cases hkill
      exact Or.inl ⟨rfl, rfl⟩
    · exact Or.inr hq
  next =>
    cases hs
    exact inv_kill h nofun

/-- **The registry is read** by a sweep. -/
theorem inv_sweep (h : Inv s) {forget : Bool} (hordered : Orderly s (.sweep w forget))
    (hs : step s (.sweep w forget) = some s') : Inv s' := by
  simp only [step] at hs
  split at hs
  · cases hs
    refine inv_frame h rfl (fun _ _ hx => hx) (fun hno => ⟨hno, rfl⟩) fun p i hp => ?_
    rcases pending_sweep hp with hp | hp
    · obtain ⟨⟨q, x⟩, hx, heq⟩ := List.mem_map.mp hp
      cases heq
      exact h.runs hx (hordered _ hx)
    · exact h.pending p i hp
  · cases hs

/-- **One of the groups it read is signalled.** -/
theorem inv_signalNext (h : Inv s) (hs : step s (.signalNext w) = some s') : Inv s' := by
  simp only [step] at hs
  split at hs
  next signal forget target todo hw =>
    cases hs
    refine inv_frame h rfl (fun q x hx => ?_) (fun hno => ?_) fun q i hq => h.pending q i ?_
    · cases forget with
      | true => exact (Groups.mem_remove.mp hx).1
      | false => exact hx
    · obtain ⟨hkept, rfl⟩ := Bool.or_eq_false_iff.mp hno
      exact ⟨hkept, rfl⟩
    · rcases pending_sweep hq with hq | hq
      · exact Or.inr ⟨w, _, hw, List.mem_cons_of_mem _ hq⟩
      · exact hq
  next => cases hs

/-- **One orderly step keeps the invariant.** -/
theorem inv_step (h : Inv s) (hordered : Orderly s a) (hs : step s a = some s') : Inv s' := by
  cases a with
  | start i pgid label => exact inv_start h hordered hs
  | exit i => exact inv_exit h hordered hs
  | finish i =>
      obtain ⟨e, he, rfl⟩ := Option.map_eq_some_iff.mp hs
      exact inv_leave h he (fun p _ => hordered p) nofun fun killed hk => by cases hk; rfl
  | timeout i =>
      obtain ⟨e, he, rfl⟩ := Option.map_eq_some_iff.mp hs
      exact inv_leave h he (fun p _ => hordered.2 p) nofun nofun
  | drop i => exact inv_drop h hordered hs
  | take k label => exact inv_take h hordered hs
  | term k graceOver =>
      simp only [step] at hs
      split at hs
      · cases hs
        exact inv_kill h fun p i => by split <;> exact nofun
      · cases hs
  | probe k alive graceOver =>
      simp only [step] at hs
      split at hs
      · cases hs
        exact inv_kill h fun p i => by split <;> exact nofun
      · cases hs
  | sweep w forget => exact inv_sweep h hordered hs
  | signalNext w => exact inv_signalNext h hs

/-! ### Every run -/

/-- What the registry says of a state is so. -/
structure Exact (s : Sh) : Prop where
  keys : ∀ p ∈ s.groups.keys, s.Awaited p
  all : s.emptied = false → ∀ p, s.Awaited p → p ∈ s.groups.keys
  killed : ∀ i e, s.execs i = some e → e.status = .answered true → e.marked = true

/-- A step signals no group but that of the command it means, while it is running,
and an `sh.kill` that finds its label finds that of an awaiting call. -/
structure Careful (s : Sh) (a : Act) : Prop where
  signals : ∀ sent ∈ signals s a, s.Runs sent.call sent.pgid
  found : ∀ k label entry, a = .take k label → s.groups.labelled label = some entry →
    ∃ e, s.exec? entry.2.call = some e ∧ e.pgid = some entry.1 ∧ e.label = some label

theorem Inv.exact (h : Inv s) : Exact s where
  keys _ hp := h.awaited_of_mem_keys hp
  all := h.all
  killed := h.killed

theorem Inv.careful (h : Inv s) (hordered : Orderly s a) : Careful s a where
  signals := by
    intro sent hsent
    cases a with
    | timeout i =>
        obtain ⟨q, hq, rfl⟩ := List.mem_map.mp hsent
        obtain ⟨e, he, hpe⟩ := Option.bind_eq_some_iff.mp (Option.mem_toList.mp hq)
        exact ⟨e, he, hpe, Bool.eq_false_iff.mpr fun hended => hordered.1 ⟨e, he, hended⟩⟩
    | term k graceOver =>
        -- the group it took is still to be signalled, so its command is running
        simp only [AgentBlock.Bridge.signals] at hsent
        split at hsent
        next q i hk =>
          have hruns : s.Runs i q := h.pending q i (Or.inl ⟨k, hk⟩)
          rcases List.mem_cons.mp hsent with rfl | hsent
          · exact hruns
          · split at hsent
            · obtain rfl := List.mem_singleton.mp hsent
              exact hruns
            · exact absurd hsent List.not_mem_nil
        next => exact absurd hsent List.not_mem_nil
    | probe k alive graceOver =>
        simp only [AgentBlock.Bridge.signals] at hsent
        split at hsent
        next q i hk =>
          split at hsent
          next hyes =>
            obtain ⟨halive, hover⟩ := Bool.and_eq_true_iff.mp hyes
            obtain rfl := List.mem_singleton.mp hsent
            exact hordered halive hover q i hk
          next => exact absurd hsent List.not_mem_nil
        next => exact absurd hsent List.not_mem_nil
    | signalNext w =>
        simp only [AgentBlock.Bridge.signals] at hsent
        split at hsent
        next hw =>
          obtain rfl := List.mem_singleton.mp hsent
          exact h.pending _ _ (Or.inr ⟨w, _, hw, List.mem_cons_self⟩)
        next => exact absurd hsent List.not_mem_nil
    | _ => exact absurd hsent List.not_mem_nil
  found := by
    rintro k label ⟨p, x⟩ rfl hp
    obtain ⟨hx, hlabel⟩ := Groups.mem_of_labelled hp
    obtain ⟨e, he, hpe, hel, -⟩ := h.entry p x hx
    exact ⟨e, he, hpe, hel.trans hlabel⟩

/-- **In every orderly run the registry is exact**, and every signal goes to the
group of the command it is meant for, while that is running: never to an id that
was given again. -/
theorem groups_exact (h : Steps.Run step Orderly Sh.init s) :
    Exact s ∧ ∀ a, Orderly s a → Careful s a := by
  have hinv : Inv s := h.inv inv_init fun _ _ _ hi ho hs => inv_step hi ho hs
  exact ⟨hinv.exact, fun a ha => hinv.careful ha⟩

/-- A run in which an `sh.kill` ends a command. -/
theorem groups_exact_of_a_kill : ∃ s, Steps.Run step Orderly Sh.init s ∧
    s.kills 0 = some (.answered true) ∧
    (s.execs 0).map Exec.status = some (.answered true) ∧ Exact s := by
  have hrun : ∃ s, Steps.Run step Orderly Sh.init s ∧ s.kills 0 = some (.answered true) ∧
      (s.execs 0).map Exec.status = some (.answered true) := by
    refine ⟨_, .step (a := .probe 0 false false) (.step (a := .finish 0) (.step (a := .term 0 false)
      (.step (a := .take 0 "job") (.step (a := .start 0 (some 7) (some "job")) .init ?_ rfl)
        ?_ rfl) ?_ rfl) ?_ rfl) ?_ rfl, rfl, rfl⟩
    · rintro ⟨i, e, h, -⟩
      cases h
    · rintro entry hentry ⟨e, he, hended⟩
      cases hentry
      cases he
      cases hended
    · trivial
    · rintro p (⟨k, hk⟩ | ⟨w, sweep, hw, -⟩)
      · have hk : Function.update (Function.update (fun _ => none) 0 (some (.took 7 0))) 0
            (some (.looking 7 0)) k = some (Kill.took p 0) := hk
        by_cases hk0 : k = 0
        · subst hk0
          cases hk
        · rw [Function.update_of_ne hk0, Function.update_of_ne hk0] at hk
          cases hk
      · cases hw
    · exact nofun
  obtain ⟨s, h, hkill, hstatus⟩ := hrun
  exact ⟨s, h, hkill, hstatus, (groups_exact h).1⟩

/-- **A call that is dropped leaves its group behind**: nobody awaits it, and an
`sh.kill` finds it and signals it. -/
theorem a_dropped_call_leaves_its_group : ∃ s s', Steps.Run step Possible Sh.init s ∧
    ¬ Exact s ∧ ¬ Careful s (.take 0 "job") ∧ step s (.take 0 "job") = some s' ∧
    signals s' (.term 0 false) = [⟨7, 0, .term⟩] ∧ ¬ s'.Awaited 7 := by
  have hnobody : ∀ {s : Sh}, (∀ i, i ≠ 0 → s.execs i = none) →
      (∀ e, s.execs 0 = some e → e.status = .dropped) → ∀ {i e}, s.exec? i ≠ some e := by
    intro s hnone hdropped i e he
    obtain ⟨he, hawaiting⟩ := exec?_eq_some.mp he
    by_cases hi : i = 0
    · subst hi
      cases (hdropped e he).symm.trans hawaiting
    · rw [hnone i hi] at he
      cases he
  have hdrop : ∀ i, i ≠ 0 → Function.update (Function.update (fun _ => none) 0
      (some (⟨some 7, some "job", .awaiting, false, false⟩ : Exec))) 0
      (some ⟨some 7, some "job", .dropped, false, false⟩) i = none := by
    intro i hi
    rw [Function.update_of_ne hi, Function.update_of_ne hi]
  refine ⟨_, _, .step (a := .drop 0) (.step (a := .start 0 (some 7) (some "job")) .init ?_ rfl)
    trivial rfl, fun h => ?_, fun h => ?_, rfl, rfl, ?_⟩
  · rintro i ⟨e, h, -⟩
    cases h
  · obtain ⟨i, e, he, -⟩ := h.keys 7 (by decide)
    exact hnobody hdrop (fun e he => by cases he; rfl) he
  · obtain ⟨e, he, -⟩ := h.found 0 "job" (7, ⟨some "job", false, 0⟩) rfl rfl
    exact hnobody hdrop (fun e he => by cases he; rfl) he
  · rintro ⟨i, e, he, -⟩
    refine hnobody (fun i hi => ?_) (fun e he => by cases he; rfl) he
    exact Option.map_eq_none_iff.mpr (hdrop i hi)

end AgentBlock.Bridge
