/-
AgentBlock/Bridge/FsHistory.lean

When no acknowledged edit is lost.

`Applied` is what the two calls are for: the acknowledged ones in order, each
applied whole to what the one before it left.  The calls of the bridge come to
that where nobody writes between an edit's read and its write, or while another
call is half way through (`Orderly`); the fingerprint is compared to what was
read, and says nothing of what is written over.  Nor does it tell a file that was
left alone from one that came back to the version it had (`CameBack`), where a
second edit on that base changes it again.

Main results:

* `inv_step` — one orderly step keeps the invariant;
* `no_edit_is_lost` — so in every such run the file is what the acknowledged
  calls make of it, in the order they were acknowledged.
-/
import AgentBlock.Bridge.Fs

namespace AgentBlock.Bridge.Fs

variable {versionOf : Text → Text} {w w' : World} {a : Act} {i j : ℕ} {c : Call}
  {file : Option Text}

/-! ### What the calls are for -/

section Spec

variable (versionOf)

/-- `Applied file log now snapshot`: the calls of `log`, applied one after the
other from `file` on, leave the file `now`, and `snapshot` to roll back to. -/
inductive Applied (file : Option Text) : List Entry → Option Text → Option Text → Prop
  | nil : Applied file [] file none
  | edit {log : List Entry} {content new : Text} {snapshot : Option Text} {opts : EditOpts}
      {applied i : ℕ} :
      Applied file log (some content) snapshot →
      plan versionOf opts content = .ok (new, applied) →
      Applied file (log ++ [⟨i, .edit opts, some content, new⟩]) (some new) (some content)
  | rollback {log : List Entry} {content : Text} {now : Option Text} {i : ℕ} :
      Applied file log now (some content) →
      Applied file (log ++ [⟨i, .rollback, now, content⟩]) (some content) none

/-- The edit was given this base, and changed the file. -/
def Entry.ChangesFrom (e : Entry) (base : Text) : Prop :=
  (∃ opts, e.op = .edit opts ∧ opts.base = some base) ∧ base ≠ [] ∧
    e.before ≠ some e.after

end Spec

/-- A plan that comes off was made on the version it was given. -/
theorem plan_base {opts : EditOpts} {content new base : Text} {applied : ℕ}
    (h : plan versionOf opts content = .ok (new, applied)) (hbase : opts.base = some base)
    (hne : base ≠ []) : versionOf content = base := by
  by_contra hstale
  have hfilter : Option.filter (fun b => decide (b ≠ [] ∧ b ≠ versionOf content)) (some base) =
      some base := by
    rw [Option.filter_some, if_pos (by simpa [hne] using Ne.symm hstale)]
  unfold plan at h
  dsimp only at h
  rw [hbase, hfilter] at h
  cases h

/-- What an edit answers instead of a plan says that it failed. -/
theorem plan_error {opts : EditOpts} {content : Text} {reply : Reply}
    (h : plan versionOf opts content = .error reply) : reply.isOk = false := by
  unfold plan at h
  dsimp only at h
  split at h
  · cases h; rfl
  · cases h; rfl
  · split at h
    · cases h; rfl
    · split at h
      · cases h; rfl
      · split at h
        · cases h; rfl
        · cases h

/-- What there is to roll back to is what the last edit was written over. -/
theorem Applied.snapshot {log : List Entry} {now : Option Text} {content : Text}
    (h : Applied versionOf file log now (some content)) :
    ∃ pre e, log = pre ++ [e] ∧ (∃ opts, e.op = .edit opts) ∧ e.before = some content := by
  cases h with
  | edit hbefore hplan => exact ⟨_, _, rfl, ⟨_, rfl⟩, rfl⟩

/-- Each edit in the log was written over the version it was given, -/
theorem Applied.base {log : List Entry} {now snapshot : Option Text}
    (h : Applied versionOf file log now snapshot) {e : Entry} (he : e ∈ log) {opts : EditOpts}
    {base : Text} (hop : e.op = .edit opts) (hbase : opts.base = some base) (hne : base ≠ []) :
    ∃ content, e.before = some content ∧ versionOf content = base := by
  induction h with
  | nil => exact absurd he List.not_mem_nil
  | edit hbefore hplan ih =>
      rcases List.mem_append.mp he with he | he
      · exact ih he
      · obtain rfl := List.mem_singleton.mp he
        cases hop
        exact ⟨_, rfl, plan_base hplan hbase hne⟩
  | rollback hbefore ih =>
      rcases List.mem_append.mp he with he | he
      · exact ih he
      · obtain rfl := List.mem_singleton.mp he
        cases hop

/-- and each rollback restored what the edit before it was written over. -/
theorem Applied.restored {log : List Entry} {now snapshot : Option Text}
    (h : Applied versionOf file log now snapshot) {pre post : List Entry} {e : Entry}
    (hlog : log = pre ++ e :: post) (hop : e.op = .rollback) :
    ∃ pre' x, pre = pre' ++ [x] ∧ (∃ opts, x.op = .edit opts) ∧ x.before = some e.after := by
  induction h generalizing post with
  | nil => cases pre <;> cases hlog
  | edit hbefore hplan ih =>
      rcases List.eq_nil_or_concat post with rfl | ⟨post, last, rfl⟩
      · obtain ⟨-, heq⟩ := List.append_inj' hlog rfl
        cases heq
        cases hop
      · rw [List.concat_eq_append, ← List.cons_append, ← List.append_assoc] at hlog
        exact ih (List.append_inj' hlog rfl).1
  | rollback hbefore ih =>
      rcases List.eq_nil_or_concat post with rfl | ⟨post, last, rfl⟩
      · obtain ⟨rfl, heq⟩ := List.append_inj' hlog rfl
        cases heq
        exact hbefore.snapshot
      · rw [List.concat_eq_append, ← List.cons_append, ← List.append_assoc] at hlog
        exact ih (List.append_inj' hlog rfl).1

/-! ### Orderly runs -/

/-- The call has changed the file or the snapshot, and has still to do the
other. -/
def Phase.isMid : Phase → Bool
  | .wrote _ _ _ _ | .took _ => true
  | _ => false

/-- The call has changed nothing, or says that it failed. -/
def Phase.isClean : Phase → Bool
  | .start | .read _ | .checked _ _ _ => true
  | .done reply => !reply.isOk
  | _ => false

/-- The call `i` is half way through. -/
def World.Mid (w : World) (i : ℕ) : Prop := ∃ c, w.calls i = some c ∧ c.phase.isMid = true

/-- An edit that is given a base. -/
def Op.Based (op : Op) : Prop := ∃ opts base, op = .edit opts ∧ opts.base = some base ∧ base ≠ []

section Order

variable (versionOf)

/-- The version of this text is one that the file has had before: a call put
another text in the place of one of that version. -/
def World.CameBack (w : World) (content : Text) : Prop :=
  ∃ e ∈ w.log, e.before ≠ some e.after ∧
    ∃ old, e.before = some old ∧ versionOf old = versionOf content

/-- An edit is written over what it read, and while no other call is half way
through, and not with a base if the file came back to the version it has, unless
it changes nothing; a rollback starts while none is half way through; a write that
fails leaves the file, and that of a rollback does not fail. -/
def Orderly (w : World) : Act → Prop
  | .write i .ok => ∀ c content new applied, w.calls i = some c →
      c.phase = .checked content new applied →
      w.file = some content ∧ (∀ j, ¬ w.Mid j) ∧
        (c.op.Based → content ≠ new → ¬ w.CameBack versionOf content)
  | .write i (.failed left) => ∀ c, w.calls i = some c →
      w.file = left ∧ ∀ content, c.phase ≠ .took content
  | .take _ => w.snapshot ≠ none → ∀ j, ¬ w.Mid j
  | _ => True

end Order

section Inv

variable (versionOf)

/-- How the file and what is remembered of it stand to the acknowledged
calls. -/
inductive Stands (w : World) (now snapshot : Option Text) : Prop
  | idle (hidle : ∀ j, ¬ w.Mid j) (hfile : w.file = now) (hsnapshot : w.snapshot = snapshot)
  | wrote {i : ℕ} {c : Call} {opts : EditOpts} {content new : Text} {applied : ℕ}
      (hi : w.calls i = some c) (hphase : c.phase = .wrote content new applied (some content))
      (hop : c.op = .edit opts) (hplan : plan versionOf opts content = .ok (new, applied))
      (honly : ∀ j, w.Mid j → j = i) (hnow : now = some content) (hfile : w.file = some new)
      (hsnapshot : w.snapshot = snapshot)
      (hfresh : ∀ e ∈ w.log, ∀ base, e.ChangesFrom base →
        ¬ Entry.ChangesFrom ⟨i, c.op, some content, new⟩ base)
  | took {i : ℕ} {c : Call} {content : Text} (hi : w.calls i = some c)
      (hphase : c.phase = .took content) (hop : c.op = .rollback)
      (honly : ∀ j, w.Mid j → j = i) (hfile : w.file = now)
      (hsnapshot : snapshot = some content) (hnone : w.snapshot = none)

/-- What is so of each call. -/
structure Calls (w : World) : Prop where
  planned : ∀ i c content new applied, w.calls i = some c →
    c.phase = .checked content new applied →
    ∃ opts, c.op = .edit opts ∧ plan versionOf opts content = .ok (new, applied)
  took : ∀ i c content, w.calls i = some c → c.phase = .took content → c.op = .rollback
  clean : ∀ i c, w.calls i = some c → c.phase.isClean = true → c.touched = false
  logged : ∀ i c reply, w.calls i = some c → c.phase = .done reply → reply.isOk = true →
    ∃ e ∈ w.log, e.call = i ∧ e.op = c.op

/-- What every state of an orderly run satisfies. -/
structure Inv (file : Option Text) (w : World) : Prop extends Calls versionOf w where
  once : w.log.Pairwise fun e e' => ∀ base, e.ChangesFrom base → ¬ e'.ChangesFrom base
  stands : ∃ now snapshot, Applied versionOf file w.log now snapshot ∧
    Stands versionOf w now snapshot

end Inv

theorem inv_init (file : Option Text) : Inv versionOf file (World.init file) where
  planned _ _ _ _ _ h := nomatch h
  took _ _ _ h := nomatch h
  clean _ _ h := nomatch h
  logged _ _ _ h := nomatch h
  once := .nil
  stands := by
    refine ⟨file, none, .nil, .idle ?_ rfl rfl⟩
    rintro j ⟨c, h, -⟩
    cases h

/-! ### Moving a call -/

theorem move_calls {phase : Phase} {touched : Bool} {x : Call} :
    (w.move i c phase touched).calls j = some x ↔
      (j = i ∧ x = ⟨c.op, phase, c.touched || touched⟩) ∨ (j ≠ i ∧ w.calls j = some x) := by
  unfold World.move
  dsimp only
  by_cases hj : j = i
  · subst hj
    simp [eq_comm]
  · simp [hj]

theorem move_self {phase : Phase} {touched : Bool} :
    (w.move i c phase touched).calls i = some ⟨c.op, phase, c.touched || touched⟩ :=
  move_calls.mpr (Or.inl ⟨rfl, rfl⟩)

/-- A call that is moved is half way through, or not, as its new phase is. -/
theorem mid_of_calls {phase : Phase} {touched : Bool}
    (hw : w'.calls = (w.move i c phase touched).calls) :
    w'.Mid j ↔ (j = i ∧ phase.isMid = true) ∨ (j ≠ i ∧ w.Mid j) := by
  unfold World.Mid
  rw [hw]
  constructor
  · rintro ⟨x, hx, hmid⟩
    rcases move_calls.mp hx with ⟨hj, rfl⟩ | ⟨hj, hx⟩
    · exact Or.inl ⟨hj, hmid⟩
    · exact Or.inr ⟨hj, x, hx, hmid⟩
  · rintro (⟨rfl, hmid⟩ | ⟨hj, x, hx, hmid⟩)
    · exact ⟨_, move_self, hmid⟩
    · exact ⟨x, move_calls.mpr (Or.inr ⟨hj, hx⟩), hmid⟩

/-- What is so of each call is so where one is moved. -/
theorem Calls.move (h : Calls versionOf w) {phase : Phase} {touched : Bool}
    (hcalls : w'.calls = (w.move i c phase touched).calls) (hlog : w.log ⊆ w'.log)
    (hplanned : ∀ content new applied, phase = .checked content new applied →
      ∃ opts, c.op = .edit opts ∧ plan versionOf opts content = .ok (new, applied))
    (htook : ∀ content, phase = .took content → c.op = .rollback)
    (hclean : phase.isClean = true → (c.touched || touched) = false)
    (hlogged : ∀ reply, phase = .done reply → reply.isOk = true →
      ∃ e ∈ w'.log, e.call = i ∧ e.op = c.op) : Calls versionOf w' := by
  refine ⟨fun j x content new applied hx hphase => ?_, fun j x content hx hphase => ?_,
    fun j x hx hphase => ?_, fun j x reply hx hphase hok => ?_⟩ <;>
  rw [hcalls] at hx <;> rcases move_calls.mp hx with ⟨rfl, rfl⟩ | ⟨-, hx⟩
  · exact hplanned _ _ _ hphase
  · exact h.planned j x content new applied hx hphase
  · exact htook _ hphase
  · exact h.took j x content hx hphase
  · exact hclean hphase
  · exact h.clean j x hx hphase
  · exact hlogged _ hphase hok
  · obtain ⟨e, he, hrest⟩ := h.logged j x reply hx hphase hok
    exact ⟨e, hlog he, hrest⟩

/-- **A step that changes no text**: a call that was not half way through and is
not now. -/
theorem inv_move (h : Inv versionOf file w) (hnot : ¬ w.Mid i) {phase : Phase}
    {touched : Bool} (hmid' : phase.isMid = false)
    (hplanned : ∀ content new applied, phase = .checked content new applied →
      ∃ opts, c.op = .edit opts ∧ plan versionOf opts content = .ok (new, applied))
    (hclean : phase.isClean = true → (c.touched || touched) = false)
    (hfailed : ∀ reply, phase = .done reply → reply.isOk = false) :
    Inv versionOf file (w.move i c phase touched) := by
  have hsame : ∀ j, (w.move i c phase touched).Mid j ↔ w.Mid j := by
    intro j
    rw [mid_of_calls rfl, hmid']
    refine ⟨fun hj => (hj.resolve_left fun h => nomatch h.2).2, fun hj => Or.inr ⟨?_, hj⟩⟩
    rintro rfl
    exact hnot hj
  have hother : ∀ {j x}, w.calls j = some x → x.phase.isMid = true →
      (w.move i c phase touched).calls j = some x := by
    intro j x hx hx'
    refine move_calls.mpr (Or.inr ⟨?_, hx⟩)
    rintro rfl
    exact hnot ⟨x, hx, hx'⟩
  obtain ⟨now, snapshot, happlied, hstands⟩ := h.stands
  refine ⟨h.toCalls.move rfl (fun _ he => he) hplanned (fun content hphase => ?_) hclean
    (fun reply hdone hok => ?_), h.once, now, snapshot, happlied, ?_⟩
  · rw [hphase] at hmid'
    cases hmid'
  · exact absurd ((hfailed reply hdone).symm.trans hok) nofun
  · cases hstands with
    | idle hidle hfile hsnapshot =>
        exact .idle (fun j hj => hidle j ((hsame j).mp hj)) hfile hsnapshot
    | wrote hj hphase hop hplan honly hnow hfile hsnapshot hfresh =>
        exact .wrote (hother hj (by rw [hphase]; rfl)) hphase hop hplan
          (fun j hj => honly j ((hsame j).mp hj)) hnow hfile hsnapshot hfresh
    | took hj hphase hop honly hfile hsnapshot hnone =>
        exact .took (hother hj (by rw [hphase]; rfl)) hphase hop
          (fun j hj => honly j ((hsame j).mp hj)) hfile hsnapshot hnone

/-- While no call is half way through, the texts are what the calls made. -/
theorem Stands.of_idle {now snapshot : Option Text} (h : Stands versionOf w now snapshot)
    (hidle : ∀ j, ¬ w.Mid j) : w.file = now ∧ w.snapshot = snapshot := by
  cases h with
  | idle _ hfile hsnapshot => exact ⟨hfile, hsnapshot⟩
  | wrote hi hphase => exact absurd ⟨_, hi, by rw [hphase]; rfl⟩ (hidle _)
  | took hi hphase => exact absurd ⟨_, hi, by rw [hphase]; rfl⟩ (hidle _)

/-- The call that is moved on is the one that is half way through, or none
is. -/
theorem mid_eq {phase : Phase} {touched : Bool}
    (hw : w'.calls = (w.move i c phase touched).calls) (honly : ∀ j, w.Mid j → j = i) :
    (∀ j, w'.Mid j → j = i) ∧ (phase.isMid = false → ∀ j, ¬ w'.Mid j) := by
  refine ⟨fun j hj => ?_, fun hphase j hj => ?_⟩
  · exact ((mid_of_calls hw).mp hj).elim And.left fun h => absurd (honly j h.2) h.1
  · rcases (mid_of_calls hw).mp hj with ⟨-, hmid⟩ | ⟨hne, hmid⟩
    · exact absurd (hphase.symm.trans hmid) nofun
    · exact hne (honly j hmid)

/-- **No two edits change one version.**  Both were made on the version they were
given, so at the second the file had come back to what the first replaced. -/
theorem fresh_of_not_cameBack {now snapshot : Option Text} {opts : EditOpts}
    {content new : Text} {applied : ℕ} (happlied : Applied versionOf file w.log now snapshot)
    (hplan : plan versionOf opts content = .ok (new, applied))
    (hnew : (Op.edit opts).Based → content ≠ new → ¬ w.CameBack versionOf content) :
    ∀ e ∈ w.log, ∀ base, e.ChangesFrom base →
      ¬ Entry.ChangesFrom ⟨i, .edit opts, some content, new⟩ base := by
  rintro e he base ⟨⟨earlier, hop, hbase⟩, hne, hchanged⟩ ⟨⟨_, hop', hbase'⟩, -, hchanges⟩
  cases hop'
  obtain ⟨old, hbefore, hold⟩ := happlied.base he hop hbase hne
  have hcontent : versionOf content = base := plan_base hplan hbase' hne
  refine hnew ⟨opts, base, rfl, hbase', hne⟩ (fun h => hchanges (congrArg some h)) ?_
  exact ⟨e, he, hchanged, old, hbefore, hold.trans hcontent.symm⟩

/-- **An edit is written** over what it read. -/
theorem inv_write (h : Inv versionOf file w) (hi : w.calls i = some c) {content new : Text}
    {applied : ℕ} (hphase : c.phase = .checked content new applied)
    (hfile : w.file = some content) (hidle : ∀ j, ¬ w.Mid j)
    (hnew : c.op.Based → content ≠ new → ¬ w.CameBack versionOf content) (touched : Bool) :
    Inv versionOf file
      { w.move i c (.wrote content new applied w.file) touched with file := some new } := by
  obtain ⟨now, snapshot, happlied, hstands⟩ := h.stands
  obtain ⟨hnow, hsnapshot⟩ := hstands.of_idle hidle
  obtain ⟨opts, hop, hplan⟩ := h.planned i c content new applied hi hphase
  refine ⟨h.toCalls.move rfl (fun _ he => he) nofun nofun nofun nofun, h.once, now, snapshot,
    happlied, ?_⟩
  refine .wrote move_self (by rw [hfile]) hop hplan ?_ (hnow ▸ hfile) rfl hsnapshot ?_
  · exact (mid_eq rfl fun j hj => absurd hj (hidle j)).1
  · rw [hop] at hnew ⊢
    exact fresh_of_not_cameBack happlied hplan hnew

/-- **What an edit was written over is remembered**, and the edit acknowledged. -/
theorem inv_remember (h : Inv versionOf file w) (hi : w.calls i = some c)
    {content new : Text} {applied : ℕ} {previous : Option Text}
    (hphase : c.phase = .wrote content new applied previous) (touched : Bool) :
    Inv versionOf file
      { w.move i c (.done (.ok applied (versionOf new))) touched with
        snapshot := some content
        log := w.log ++ [⟨i, c.op, previous, new⟩] } := by
  obtain ⟨now, snapshot, happlied, hstands⟩ := h.stands
  have hmid : w.Mid i := ⟨c, hi, by rw [hphase]; rfl⟩
  cases hstands with
  | idle hidle => exact absurd hmid (hidle i)
  | took hj hphase' _ honly =>
      obtain rfl := honly i hmid
      cases hi.symm.trans hj
      cases hphase.symm.trans hphase'
  | wrote hj hphase' hop hplan honly hnow hfile hsnapshot hfresh =>
      obtain rfl := honly i hmid
      cases hi.symm.trans hj
      cases hphase.symm.trans hphase'
      subst hnow
      refine ⟨h.toCalls.move rfl (List.subset_append_left _ _) nofun nofun nofun
        fun reply hdone hok => ⟨_, List.mem_append_right _ List.mem_cons_self, rfl, rfl⟩, ?_,
        some new, some content, ?_, .idle ((mid_eq rfl honly).2 rfl) hfile rfl⟩
      · refine List.pairwise_append.mpr ⟨h.once, List.pairwise_singleton _ _, fun e he e' he' => ?_⟩
        obtain rfl := List.mem_singleton.mp he'
        exact hfresh e he
      · dsimp only
        rw [hop]
        exact .edit happlied hplan

/-- **A rollback takes what was remembered**, while no call is half way
through. -/
theorem inv_take (h : Inv versionOf file w) (hop : c.op = .rollback) {content : Text}
    (hsome : w.snapshot = some content) (hidle : ∀ j, ¬ w.Mid j) (touched : Bool) :
    Inv versionOf file { w.move i c (.took content) touched with snapshot := none } := by
  obtain ⟨now, snapshot, happlied, hstands⟩ := h.stands
  obtain ⟨hfile, hsnapshot⟩ := hstands.of_idle hidle
  refine ⟨h.toCalls.move rfl (fun _ he => he) nofun (fun _ _ => hop) nofun nofun, h.once, now,
    snapshot, happlied, .took move_self rfl hop ?_ hfile (hsnapshot ▸ hsome) rfl⟩
  exact (mid_eq rfl fun j hj => absurd hj (hidle j)).1

/-- **A rollback writes what it took**, and is acknowledged. -/
theorem inv_restore (h : Inv versionOf file w) (hi : w.calls i = some c) {content : Text}
    (hphase : c.phase = .took content) (touched : Bool) :
    Inv versionOf file
      { w.move i c (.done (.restored (versionOf content))) touched with
        file := some content
        log := w.log ++ [⟨i, c.op, w.file, content⟩] } := by
  obtain ⟨now, snapshot, happlied, hstands⟩ := h.stands
  have hmid : w.Mid i := ⟨c, hi, by rw [hphase]; rfl⟩
  cases hstands with
  | idle hidle => exact absurd hmid (hidle i)
  | wrote hj hphase' _ _ honly =>
      obtain rfl := honly i hmid
      cases hi.symm.trans hj
      cases hphase.symm.trans hphase'
  | took hj hphase' hop honly hfile hsnapshot hnone =>
      obtain rfl := honly i hmid
      cases hi.symm.trans hj
      cases hphase.symm.trans hphase'
      refine ⟨h.toCalls.move rfl (List.subset_append_left _ _) nofun nofun nofun
        fun reply hdone hok => ⟨_, List.mem_append_right _ List.mem_cons_self, rfl, rfl⟩, ?_,
        some content, none, ?_, .idle ((mid_eq rfl honly).2 rfl) rfl hnone⟩
      · refine List.pairwise_append.mpr ⟨h.once, List.pairwise_singleton _ _,
          fun e he e' he' base _ hchanges => ?_⟩
        obtain rfl := List.mem_singleton.mp he'
        obtain ⟨⟨opts, hedit, -⟩, -⟩ := hchanges
        cases hop.symm.trans hedit
      · dsimp only
        rw [hop, hfile]
        exact .rollback (hsnapshot ▸ happlied)

/-- A call that is in a phase is half way through only if the phase is. -/
theorem not_mid (hi : w.calls i = some c) (hphase : c.phase.isMid = false) : ¬ w.Mid i := by
  rintro ⟨x, hx, hmid⟩
  cases hi.symm.trans hx
  exact absurd (hphase.symm.trans hmid) nofun

/-- **One orderly step keeps the invariant.** -/
theorem inv_step (h : Inv versionOf file w) (hordered : Orderly versionOf w a)
    (hs : step versionOf w a = some w') : Inv versionOf file w' := by
  cases a with
  | call i op =>
      simp only [step] at hs
      split at hs
      next hnew =>
        cases hs
        have hnot : ¬ w.Mid i := by
          rintro ⟨x, hx, -⟩
          rw [hnew] at hx
          cases hx
        have hmoved : Inv versionOf file (w.move i ⟨op, .start, false⟩ .start false) :=
          inv_move h hnot rfl nofun (fun _ => rfl) nofun
        exact hmoved
      next => cases hs
  | read i ok =>
      simp only [step] at hs
      split at hs
      next hi =>
        have hnot := not_mid hi rfl
        have hclean := h.clean i _ hi rfl
        split at hs
        · cases hs
          exact inv_move h hnot rfl nofun (fun _ => by simpa using hclean) nofun
        · cases hs
          exact inv_move h hnot rfl nofun (fun _ => by simpa using hclean)
            fun reply hdone => by cases hdone; rfl
      next => cases hs
  | check i =>
      simp only [step] at hs
      split at hs
      next opts content _ hi =>
        have hnot := not_mid hi rfl
        have hclean := h.clean i _ hi rfl
        split at hs
        next new applied hplan =>
          cases hs
          refine inv_move h hnot rfl (fun a b n hphase => ?_) (fun _ => by simpa using hclean) nofun
          cases hphase
          exact ⟨opts, rfl, hplan⟩
        next reply hplan =>
          cases hs
          refine inv_move h hnot rfl nofun (fun _ => by simpa using hclean) fun reply hdone => ?_
          cases hdone
          exact plan_error hplan
      next => cases hs
  | write i written =>
      simp only [step] at hs
      split at hs
      next op content new applied touched hi =>
        cases hs
        -- the write of an edit: the file is still what it read, and no one else is half way
        obtain ⟨hfile, hidle, hnew⟩ := hordered _ content new applied hi rfl
        exact inv_write h hi rfl hfile hidle hnew _
      next left hi =>
        cases hs
        -- a failed write has left the file as it was, so the call has only answered
        obtain ⟨hfile, -⟩ := hordered _ hi
        have hclean := h.clean i _ hi rfl
        rw [← hfile]
        exact inv_move h (not_mid hi rfl) rfl nofun (fun _ => by simpa using hclean)
          fun reply hdone => by cases hdone; rfl
      next hi =>
        cases hs
        -- the write of a rollback: the snapshot it took goes back into the file
        exact inv_restore h hi rfl _
      next left hi =>
        obtain ⟨-, hno⟩ := hordered _ hi
        exact (hno _ rfl).elim
      next => cases hs
  | remember i =>
      simp only [step] at hs
      split at hs
      next hi =>
        cases hs
        exact inv_remember h hi rfl _
      next => cases hs
  | take i =>
      simp only [step] at hs
      split at hs
      next hi =>
        split at hs
        next content hsome =>
          cases hs
          -- the snapshot leaves the registry before it is written
          exact inv_take h rfl hsome (hordered (by rw [hsome]; exact nofun)) _
        next hnone =>
          cases hs
          have hclean := h.clean i _ hi rfl
          exact inv_move h (not_mid hi rfl) rfl nofun (fun _ => by simpa using hclean)
            fun reply hdone => by cases hdone; rfl
      next => cases hs

/-! ### Every run -/

/-- No acknowledged edit is lost. -/
structure NoneLost (versionOf : Text → Text) (file : Option Text) (w : World) : Prop where
  /-- The file is what the acknowledged calls make of it, one after the other. -/
  order : (∀ j, ¬ w.Mid j) → Applied versionOf file w.log w.file w.snapshot
  acknowledged : ∀ i c reply, w.calls i = some c → c.phase = .done reply →
    reply.isOk = true → ∃ e ∈ w.log, e.call = i ∧ e.op = c.op
  base : ∀ e ∈ w.log, ∀ opts base, e.op = .edit opts → opts.base = some base → base ≠ [] →
    ∃ content, e.before = some content ∧ versionOf content = base
  once : w.log.Pairwise fun e e' => ∀ base, e.ChangesFrom base → ¬ e'.ChangesFrom base
  /-- A rollback restores what the edit before it was written over. -/
  restored : ∀ pre e post, w.log = pre ++ e :: post → e.op = .rollback →
    ∃ pre' x, pre = pre' ++ [x] ∧ (∃ opts, x.op = .edit opts) ∧ x.before = some e.after
  /-- A call that failed has changed neither the file nor the snapshot. -/
  failed : ∀ i c reply, w.calls i = some c → c.phase = .done reply → reply.isOk = false →
    c.touched = false

theorem Inv.noneLost (h : Inv versionOf file w) : NoneLost versionOf file w := by
  obtain ⟨now, snapshot, happlied, hstands⟩ := h.stands
  refine ⟨fun hidle => ?_, h.logged, fun e he opts base hop hbase hne => ?_, h.once,
    fun pre e post hlog hop => happlied.restored hlog hop, fun i c reply hi hdone hfail => ?_⟩
  · obtain ⟨rfl, rfl⟩ := hstands.of_idle hidle
    exact happlied
  · exact happlied.base he hop hbase hne
  · exact h.clean i c hi (by rw [hdone, Phase.isClean, hfail]; rfl)

/-- **In every orderly run no acknowledged edit is lost**, in whatever order the
steps of the calls come.  What is asked is of the file alone: a write lands over the
text its call read, with no other call half way through, and not on a file that came
back to a text of that version.  That of two edits with one base at most one answers
`ok` is not asked: the second finds another version. -/
theorem no_edit_is_lost (h : Steps.Run (step versionOf) (Orderly versionOf) (World.init file) w) :
    NoneLost versionOf file w :=
  (h.inv (inv_init file) fun _ _ _ hi ho hs => inv_step hi ho hs).noneLost

/-- The fingerprints of three texts. -/
def threeVersions (content : Text) : Text :=
  if content = ['a'] then "ca978112ca1bbdca".toList
  else if content = ['b'] then "3e23e8160039594a".toList
  else if content = ['c'] then "2e7d2c03a9507ae2".toList
  else []

/-- Replace the one line `a`, given the version it has. -/
def replaceA (replace : Char) : EditOpts where
  base := some "ca978112ca1bbdca".toList
  edits := some [⟨1, 1, ['a'], [replace]⟩]

example : plan threeVersions (replaceA 'b') ['a'] = .ok (['b'], 1) := by decide

/-- An edit and a rollback, one after the other. -/
theorem no_edit_is_lost_in_turn : ∃ w,
    Steps.Run (step threeVersions) (Orderly threeVersions) (World.init (some ['a'])) w ∧
      w.log.length = 2 ∧ w.file = some ['a'] ∧ NoneLost threeVersions (some ['a']) w := by
  have hrun : ∃ w,
      Steps.Run (step threeVersions) (Orderly threeVersions) (World.init (some ['a'])) w ∧
      w.log.length = 2 ∧ w.file = some ['a'] := by
    refine ⟨_, .step (a := .write 1 .ok) (.step (a := .take 1) (.step (a := .call 1 .rollback)
      (.step (a := .remember 0) (.step (a := .write 0 .ok) (.step (a := .check 0)
      (.step (a := .read 0 true) (.step (a := .call 0 (.edit (replaceA 'b'))) .init trivial rfl)
        trivial rfl) trivial rfl) ?_ rfl) trivial rfl) trivial rfl) ?_ rfl) ?_ rfl, rfl, rfl⟩
    · rintro c content new applied hc hphase
      cases hc
      cases hphase
      refine ⟨rfl, ?_, fun _ _ ⟨e, he, _⟩ => absurd he List.not_mem_nil⟩
      rintro j ⟨x, hx, hmid⟩
      match j, hx with
      | 0, hx => cases hx; cases hmid
      | _ + 1, hx => cases hx
    · rintro - j ⟨x, hx, hmid⟩
      match j, hx with
      | 0, hx => cases hx; cases hmid
      | 1, hx => cases hx; cases hmid
      | _ + 2, hx => cases hx
    · rintro c content new applied hc hphase
      cases hc
      cases hphase
  obtain ⟨w, h, hlog, hfile⟩ := hrun
  exact ⟨w, h, hlog, hfile, no_edit_is_lost h⟩

/-- **Two edits on one premise are both acknowledged**, the second written over
a file it never saw. -/
theorem two_edits_on_one_base : ∃ w,
    Steps.Run (step threeVersions) (fun _ _ => True) (World.init (some ['a'])) w ∧
      w.file = some ['c'] ∧ ¬ NoneLost threeVersions (some ['a']) w := by
  have hrun : ∃ w, Steps.Run (step threeVersions) (fun _ _ => True) (World.init (some ['a'])) w ∧
      w.file = some ['c'] ∧
      w.log = [⟨0, .edit (replaceA 'b'), some ['a'], ['b']⟩,
        ⟨1, .edit (replaceA 'c'), some ['b'], ['c']⟩] := by
    refine ⟨_, .step (a := .remember 1) (.step (a := .write 1 .ok) (.step (a := .remember 0)
      (.step (a := .write 0 .ok) (.step (a := .check 1) (.step (a := .check 0)
      (.step (a := .read 1 true) (.step (a := .read 0 true)
      (.step (a := .call 1 (.edit (replaceA 'c')))
      (.step (a := .call 0 (.edit (replaceA 'b'))) .init trivial rfl) trivial rfl)
      trivial rfl) trivial rfl) trivial rfl) trivial rfl) trivial rfl) trivial rfl) trivial rfl)
      trivial rfl, rfl, rfl⟩
  obtain ⟨w, h, hfile, hlog⟩ := hrun
  refine ⟨w, h, hfile, fun hnone => ?_⟩
  obtain ⟨content, hbefore, hversion⟩ := hnone.base ⟨1, .edit (replaceA 'c'), some ['b'], ['c']⟩
    (by rw [hlog]; simp) _ _ rfl rfl (by decide)
  cases hbefore
  revert hversion
  decide

end AgentBlock.Bridge.Fs
