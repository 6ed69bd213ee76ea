/-
AgentBlock/Serve/OneRun.lean

One live run per job, and one end per run.

Main results:

* `good_step` — a step that meets the condition keeps what holds of the manager;
* `one_run_each` — so the record of every run of it is in order;
* `late_start_overlaps` — without the condition a job has two live runs.
-/
import AgentBlock.Serve.Deciding

namespace AgentBlock.Serve

open Job
open Knl (Database Row stringField appendRow)
open Leases (Ev opens live Closed closes)

variable {ids : List String} {db : Database} {cfg : Config} {v v' : View}

/-! ### Tasks -/

/-- What must hold of what the manager is given. -/
structure Sane (cfg : Config) : Prop where
  own : cfg.own ∈ cfg.ids
  names : (cfg.jobs.map Declared.name).Nodup
  tick : 1 ≤ cfg.tickS
  whole : ∀ d ∈ cfg.jobs, ∀ every, d.every = some every → ∃ n : ℕ, every * 1000 = n

structure Good (cfg : Config) (w : World) : Prop where
  core : Core cfg w.view
  phase : GoodPhase cfg w.view w.phase
  clock : 0 ≤ w.time

variable {w w' : World}

/-- What lands keeps what the phase relies on. -/
theorem Good.of (h : Good cfg w) (hcore : Core cfg w'.view ∧ Later cfg w.view w'.view)
    (hphase : GoodPhase cfg w.view w'.phase) : Good cfg w' :=
  ⟨hcore.1, hphase.later hcore.2, h.clock.trans hcore.2.time⟩

theorem good_step_wait {d : ℚ} (h : Good cfg w) (hstep : step cfg w (.wait d) = some w') :
    Good cfg w' := by
  simp only [step] at hstep
  split_ifs at hstep with hd
  obtain rfl := Option.some.inj hstep
  refine Good.of h (h.core.less ⟨rfl, ?_, .refl _, .refl _, .refl _⟩) h.phase
  show w.time ≤ w.time + d
  linarith

theorem split_of_find {run : String} {t : Task} (hnodup : (w.tasks.map Task.run).Nodup)
    (h : w.find run = some t) : t.run = run ∧ ∃ before after, w.tasks = before ++ t :: after ∧
      (∀ x ∈ before, x.run ≠ run) ∧ ∀ x ∈ after, x.run ≠ run := by
  obtain ⟨hrun, before, after, hsplit, hbefore⟩ := List.find?_eq_some_iff_append.mp h
  have hrun : t.run = run := of_decide_eq_true hrun
  refine ⟨hrun, before, after, hsplit, fun x hx => by simpa using hbefore x hx, ?_⟩
  intro x hx heq
  rw [hsplit, List.map_append, List.map_cons] at hnodup
  obtain ⟨-, hafter, -⟩ := List.nodup_append.mp hnodup
  apply (List.nodup_cons.mp hafter).1
  rw [hrun, ← heq]
  exact List.mem_map_of_mem hx

section Split

variable {before after : List Task} {t : Task}

/-- What else may land. -/
def others (before after : List Task) (flight : List Entry) : List Entry :=
  before.filterMap Task.start ++ after.filterMap Task.start ++ startsIn flight

def otherLeases (before after : List Task) (flight : List Entry) (phase : Phase) :
    List (String × String) :=
  before.filterMap Task.lease ++ after.filterMap Task.lease ++ endings flight ++
    endings phase.inFlight.toList

theorem filterMap_split {α β : Type*} (f : α → Option β) (before after : List α) (x : α) :
    ((before ++ x :: after).filterMap f).Perm
      ((f x).toList ++ (before.filterMap f ++ after.filterMap f)) := by
  have hcons : (x :: after).filterMap f = (f x).toList ++ after.filterMap f := by
    cases hx : f x with
    | none => rw [List.filterMap_cons_none hx]; rfl
    | some y => rw [List.filterMap_cons_some hx]; rfl
  rw [List.filterMap_append, hcons, ← List.append_assoc, ← List.append_assoc]
  exact List.Perm.append_right _ List.perm_append_comm

theorem starts_perm (h : w.tasks = before ++ t :: after) :
    w.view.starts.Perm (t.start.toList ++ others before after w.flight) := by
  show (w.tasks.filterMap Task.start ++ startsIn w.flight).Perm _
  rw [h, others, ← List.append_assoc]
  exact List.Perm.append_right _ (filterMap_split _ _ _ _)

theorem ends_perm (h : w.tasks = before ++ t :: after) :
    w.view.ends.Perm (t.lease.toList ++ otherLeases before after w.flight w.phase) := by
  show (w.tasks.filterMap Task.lease ++ endings w.flight ++ _).Perm _
  rw [h, otherLeases, ← List.append_assoc, ← List.append_assoc]
  exact List.Perm.append_right _ (List.Perm.append_right _ (filterMap_split _ _ _ _))

theorem setStage_tasks {run : String} (stage : Stage) (h : w.tasks = before ++ t :: after)
    (hrun : t.run = run) (hbefore : ∀ x ∈ before, x.run ≠ run)
    (hafter : ∀ x ∈ after, x.run ≠ run) :
    (w.setStage run stage).tasks = before ++ { t with stage } :: after := by
  have hsame : ∀ l : List Task, (∀ x ∈ l, x.run ≠ run) →
      l.map (fun x => if x.run = run then { x with stage } else x) = l := by
    intro l hl
    exact (List.map_congr_left fun x hx => if_neg (hl x hx)).trans (List.map_id' l)
  show w.tasks.map _ = _
  rw [h, List.map_append, List.map_cons, hsame _ hbefore, hsame _ hafter, if_pos hrun]

theorem remove_tasks {run : String} (h : w.tasks = before ++ t :: after)
    (hrun : t.run = run) (hbefore : ∀ x ∈ before, x.run ≠ run)
    (hafter : ∀ x ∈ after, x.run ≠ run) : (w.remove run).tasks = before ++ after := by
  have hsame : ∀ l : List Task, (∀ x ∈ l, x.run ≠ run) →
      l.filter (fun x => x.run ≠ run) = l := by
    intro l hl
    exact List.filter_eq_self.mpr fun x hx => decide_eq_true (hl x hx)
  show w.tasks.filter _ = _
  rw [h, List.filter_append, List.filter_cons_of_neg (by simpa using hrun), hsame _ hbefore,
    hsame _ hafter]

end Split

section Task

variable {run : String} {t : Task}

theorem runs_setStage (stage : Stage) :
    (w.setStage run stage).tasks.map Task.run = w.tasks.map Task.run := by
  show (w.tasks.map _).map Task.run = _
  rw [List.map_map]
  apply List.map_congr_left
  intro x _
  rw [Function.comp_apply]
  split <;> rfl

/-- A task goes on, and no start or end of it is to land that was not before. -/
theorem less_setStage {stage : Stage} (hnodup : (w.tasks.map Task.run).Nodup)
    (hfind : w.find run = some t) (hstart : Task.start { t with stage } = none)
    (hlease : Task.lease { t with stage } = none ∨ Task.lease { t with stage } = t.lease) :
    Less w.view (w.setStage run stage).view := by
  obtain ⟨hrun, before, after, hsplit, hbefore, hafter⟩ := split_of_find hnodup hfind
  have hsplit' := setStage_tasks stage hsplit hrun hbefore hafter
  refine ⟨rfl, le_rfl, ?_, ?_, ?_⟩
  · have hperm := starts_perm hsplit'
    rw [hstart] at hperm
    refine hperm.subperm.trans ((List.Sublist.subperm ?_).trans (starts_perm hsplit).symm.subperm)
    exact List.sublist_append_right _ _
  · have hperm := ends_perm hsplit'
    refine hperm.subperm.trans ((List.Sublist.subperm ?_).trans (ends_perm hsplit).symm.subperm)
    apply List.Sublist.append_right
    rcases hlease with hlease | hlease
    · rw [hlease]
      exact List.nil_sublist _
    · rw [hlease]
  · show ((w.setStage run stage).tasks.map Task.run).Sublist (w.tasks.map Task.run)
    rw [runs_setStage]

theorem startsIn_inFlight (t : Task) : startsIn t.inFlight.toList = t.start.toList := by
  obtain ⟨job, run, requested, stage⟩ := t
  cases stage <;> rfl

theorem endings_inFlight (t : Task) : (endings t.inFlight.toList).Sublist t.lease.toList := by
  obtain ⟨job, run, requested, stage⟩ := t
  cases stage with
  | running => exact List.nil_sublist _
  | _ => exact List.Sublist.refl _

/-- An aborted task has nothing to land that it had not before. -/
theorem less_abort (hnodup : (w.tasks.map Task.run).Nodup) :
    Less w.view (w.abort run).view := by
  cases hfind : w.find run with
  | none =>
      have hsame : (w.remove run).tasks = w.tasks := by
        apply List.filter_eq_self.mpr
        intro x hx
        exact decide_eq_true (by simpa using List.find?_eq_none.mp hfind x hx)
      have hview : (w.abort run).view = w.view := by
        unfold World.abort
        rw [hfind]
        show World.view { w.remove run with flight := w.flight ++ [] } = _
        rw [List.append_nil]
        unfold World.view
        simp only [hsame]
        rfl
      rw [hview]
      exact ⟨rfl, le_rfl, .refl _, .refl _, .refl _⟩
  | some t =>
      obtain ⟨hrun, before, after, hsplit, hbefore, hafter⟩ := split_of_find hnodup hfind
      have htasks : (w.abort run).tasks = before ++ after :=
        remove_tasks hsplit hrun hbefore hafter
      have hflight : (w.abort run).flight = w.flight ++ t.inFlight.toList := by
        unfold World.abort
        rw [hfind]
        rfl
      refine ⟨rfl, le_rfl, ?_, ?_, ?_⟩
      · refine List.Perm.subperm (List.Perm.trans ?_ (starts_perm hsplit).symm)
        show ((w.abort run).tasks.filterMap Task.start ++ startsIn (w.abort run).flight).Perm _
        rw [htasks, hflight, List.filterMap_append, others, startsIn, List.filter_append,
          ← List.append_assoc]
        -- the append the task was about to make is on its way now, beside those before it
        refine List.perm_append_comm.trans (List.Perm.append_right _ ?_)
        exact .of_eq (startsIn_inFlight t)
      · refine List.Subperm.trans ?_ (ends_perm hsplit).symm.subperm
        show ((w.abort run).tasks.filterMap Task.lease ++ endings (w.abort run).flight ++
          endings w.phase.inFlight.toList).Subperm _
        rw [htasks, hflight, List.filterMap_append, otherLeases, endings, List.filterMap_append,
          ← List.append_assoc, ← List.append_assoc]
        refine List.Subperm.append ?_ (.refl _)
        refine List.perm_append_comm.subperm.trans ?_
        rw [List.append_assoc, List.append_assoc]
        exact ((endings_inFlight t).append (.refl _)).subperm
      · show ((w.abort run).tasks.map Task.run).Sublist (w.tasks.map Task.run)
        rw [htasks, hsplit]
        apply List.Sublist.map
        exact (List.Sublist.refl before).append (List.sublist_cons_self _ _)

/-- A run starts. -/
theorem good_start (hsane : Sane cfg) (h : Good cfg w) {job : String} {requested : Option ℕ}
    (hfind : w.find run = some ⟨job, run, requested, .starting⟩) :
    Good cfg ((w.append cfg (Task.startEntry ⟨job, run, requested, .starting⟩)).setStage run
      .running) := by
  obtain ⟨hrun, before, after, hsplit, hbefore, hafter⟩ := split_of_find h.core.runs hfind
  have hsplit' := @setStage_tasks
    (w.append cfg (Task.startEntry ⟨job, run, requested, .starting⟩)) before after _ run .running
    hsplit hrun hbefore hafter
  refine Good.of h (@Core.through cfg _ _
    ⟨w.db, w.time, Task.startEntry ⟨job, run, requested, .starting⟩ ::
      others before after w.flight, otherLeases before after w.flight w.phase,
      w.tasks.map Task.run⟩ _ h.core ⟨rfl, le_rfl, ?_, ?_, .refl _⟩ (Core.opened hsane.own)
    ⟨rfl, le_rfl, ?_, ?_, ?_⟩) h.phase
  · exact (starts_perm hsplit).symm.subperm
  · exact (ends_perm hsplit).symm.subperm
  · exact (starts_perm hsplit').subperm
  · exact (ends_perm hsplit').subperm
  · show ((World.setStage _ run .running).tasks.map Task.run).Sublist (w.tasks.map Task.run)
    rw [runs_setStage]
    exact .refl _

/-- A run ends. -/
theorem good_finish (hsane : Sane cfg) (h : Good cfg w) {job outcome : String}
    {requested : Option ℕ} {more : Obj}
    (hfind : w.find run = some ⟨job, run, requested, .ending outcome more⟩) :
    Good cfg ((w.append cfg (.runEnded job run outcome more)).setStage run .over) := by
  obtain ⟨hrun, before, after, hsplit, hbefore, hafter⟩ := split_of_find h.core.runs hfind
  have hsplit' := @setStage_tasks (w.append cfg (.runEnded job run outcome more)) before after _
    run .over hsplit hrun hbefore hafter
  refine Good.of h (@Core.through cfg _ _
    ⟨w.db, w.time, others before after w.flight,
      (job, run) :: otherLeases before after w.flight w.phase, w.tasks.map Task.run⟩ _ h.core
    ⟨rfl, le_rfl, ?_, ?_, .refl _⟩ (Core.closed hsane.own) ⟨rfl, le_rfl, ?_, ?_, ?_⟩) h.phase
  · exact (starts_perm hsplit).symm.subperm
  · exact (ends_perm hsplit).symm.subperm
  · exact (starts_perm hsplit').subperm
  · exact (ends_perm hsplit').subperm
  · show ((World.setStage _ run .over).tasks.map Task.run).Sublist (w.tasks.map Task.run)
    rw [runs_setStage]
    exact .refl _

end Task

theorem good_step_start (hsane : Sane cfg) {run : String} {lands : Bool} (h : Good cfg w)
    (hstep : step cfg w (.start run lands) = some w') : Good cfg w' := by
  simp only [step] at hstep
  split at hstep
  · next job run' requested hfind =>
      obtain rfl : run' = run := (split_of_find h.core.runs hfind).1
      split_ifs at hstep with hlands
      · obtain rfl := Option.some.inj hstep
        exact good_start hsane h hfind
      · obtain rfl := Option.some.inj hstep
        exact Good.of h (h.core.less
          (less_setStage h.core.runs hfind rfl (.inl rfl))) h.phase
  · cases hstep

theorem good_step_answer {run outcome : String} {more : Obj} (h : Good cfg w)
    (hstep : step cfg w (.answer run outcome more) = some w') : Good cfg w' := by
  simp only [step] at hstep
  split at hstep
  · next job run' requested hfind =>
      obtain rfl : run' = run := (split_of_find h.core.runs hfind).1
      obtain rfl := Option.some.inj hstep
      exact Good.of h (h.core.less
        (less_setStage h.core.runs hfind rfl (.inr rfl))) h.phase
  · cases hstep

theorem good_step_raise {run : String} (h : Good cfg w)
    (hstep : step cfg w (.raise run) = some w') : Good cfg w' := by
  simp only [step] at hstep
  split at hstep
  · next job run' requested hfind =>
      obtain rfl : run' = run := (split_of_find h.core.runs hfind).1
      obtain rfl := Option.some.inj hstep
      exact Good.of h (h.core.less
        (less_setStage h.core.runs hfind rfl (.inl rfl))) h.phase
  · cases hstep

theorem good_step_finish (hsane : Sane cfg) {run : String} {lands : Bool} (h : Good cfg w)
    (hstep : step cfg w (.finish run lands) = some w') : Good cfg w' := by
  simp only [step] at hstep
  split at hstep
  · next job run' requested outcome more hfind =>
      obtain rfl : run' = run := (split_of_find h.core.runs hfind).1
      split_ifs at hstep with hlands
      · obtain rfl := Option.some.inj hstep
        exact good_finish hsane h hfind
      · obtain rfl := Option.some.inj hstep
        exact Good.of h (h.core.less
          (less_setStage h.core.runs hfind rfl (.inl rfl))) h.phase
  · cases hstep

theorem good_step_drop {run : String} (h : Good cfg w) (hstep : step cfg w (.drop run) = some w') :
    Good cfg w' := by
  simp only [step] at hstep
  split at hstep
  · next job run' requested hfind =>
      obtain rfl := Option.some.inj hstep
      have hsub : (w.remove run').tasks.Sublist w.tasks := List.filter_sublist
      exact Good.of h (h.core.less ⟨rfl, le_rfl,
        ((hsub.filterMap _).append (.refl _)).subperm,
        (((hsub.filterMap _).append (.refl _)).append (.refl _)).subperm,
        hsub.map _⟩) h.phase
  · cases hstep

theorem good_note (hsane : Sane cfg) (h : Good cfg w) {e : Entry} (hev : entryEv e = .other) :
    Good cfg (w.append cfg e) :=
  Good.of h (h.core.noted hsane.own hev) h.phase

theorem good_step_ask (hsane : Sane cfg) {job : String} {asker : Option String} (h : Good cfg w)
    (hstep : step cfg w (.ask job asker) = some w') : Good cfg w' := by
  simp only [step] at hstep
  split_ifs at hstep with hjob
  obtain rfl := Option.some.inj hstep
  exact good_note hsane h rfl

theorem good_step_check {run : String} (h : Good cfg w)
    (hstep : step cfg w (.check run) = some w') : Good cfg w' := by
  simp only [step] at hstep
  split_ifs at hstep with hlive
  obtain rfl := Option.some.inj hstep
  exact ⟨h.core, h.phase, h.clock⟩

theorem good_step_stop (hsane : Sane cfg) {run : String} {asker : Option String} (h : Good cfg w)
    (hstep : step cfg w (.stop run asker) = some w') : Good cfg w' := by
  simp only [step] at hstep
  split_ifs at hstep with hchecked
  obtain rfl := Option.some.inj hstep
  have hgood := good_note hsane h (e := .runStopRequested run asker) rfl
  exact ⟨hgood.core, hgood.phase, hgood.clock⟩

/-- An append of an aborted task lands. -/
theorem good_land (hsane : Sane cfg) (h : Good cfg w) {n : ℕ} {e : Entry}
    (hn : w.flight[n]? = some e) :
    Good cfg { w.append cfg e with flight := w.flight.eraseIdx n } := by
  obtain ⟨hlt, hget⟩ := List.getElem?_eq_some_iff.mp hn
  -- it may be any of those on their way, so only which ones they are is kept
  have hperm : w.flight.Perm (e :: w.flight.eraseIdx n) := by
    rw [← hget]
    exact (List.getElem_cons_eraseIdx_perm hlt).symm
  have hsub : (w.flight.eraseIdx n).Sublist w.flight := List.eraseIdx_sublist _ _
  have hstarts : (w.tasks.filterMap Task.start ++ startsIn (w.flight.eraseIdx n)).Sublist
      w.view.starts := (List.Sublist.refl _).append (hsub.filter _)
  have hends : (w.tasks.filterMap Task.lease ++ endings (w.flight.eraseIdx n) ++
      endings w.phase.inFlight.toList).Sublist w.view.ends :=
    ((List.Sublist.refl _).append (hsub.filterMap _)).append (.refl _)
  cases hev : entryEv e with
  | other =>
      refine Good.of h (@Core.through cfg _ _ w.view _ h.core
        ⟨rfl, le_rfl, .refl _, .refl _, .refl _⟩ (fun hcore => hcore.noted hsane.own hev)
        ⟨rfl, le_rfl, hstarts.subperm, hends.subperm, .refl _⟩) h.phase
  | opened job run =>
      cases e with
      | runStarted j r more =>
          refine Good.of h (@Core.through cfg _ _
            ⟨w.db, w.time, .runStarted j r more ::
              (w.tasks.filterMap Task.start ++ startsIn (w.flight.eraseIdx n)),
              w.view.ends, w.view.runs⟩ _ h.core
            ⟨rfl, le_rfl, ?_, .refl _, .refl _⟩ (Core.opened hsane.own)
            ⟨rfl, le_rfl, .refl _, hends.subperm.trans (List.sublist_cons_self _ _).subperm,
              .refl _⟩) h.phase
          have hfilter : (startsIn w.flight).Perm
              (.runStarted j r more :: startsIn (w.flight.eraseIdx n)) := hperm.filter _
          exact (List.perm_middle.symm.trans
            (List.Perm.append_left _ hfilter.symm)).subperm
      | _ => cases hev
  | closed job run =>
      cases e with
      | runEnded j r outcome more =>
          refine Good.of h (@Core.through cfg _ _
            ⟨w.db, w.time, w.view.starts, (j, r) ::
              (w.tasks.filterMap Task.lease ++ endings (w.flight.eraseIdx n) ++
                endings w.phase.inFlight.toList), w.view.runs⟩ _ h.core
            ⟨rfl, le_rfl, .refl _, ?_, .refl _⟩ (Core.closed hsane.own)
            ⟨rfl, le_rfl, hstarts.subperm, .refl _, .refl _⟩) h.phase
          have hfilter : (endings w.flight).Perm
              ((j, r) :: endings (w.flight.eraseIdx n)) := hperm.filterMap _
          rw [List.append_assoc]
          refine List.Perm.subperm (List.perm_middle.symm.trans (List.Perm.symm ?_))
          show (w.tasks.filterMap Task.lease ++ endings w.flight ++ _).Perm _
          rw [List.append_assoc]
          exact List.Perm.append_left _ (List.Perm.append_right _ hfilter)
      | _ => cases hev

theorem good_step_land (hsane : Sane cfg) {n : ℕ} (h : Good cfg w)
    (hstep : step cfg w (.land n) = some w') : Good cfg w' := by
  simp only [step] at hstep
  split at hstep
  · next e hn =>
      obtain rfl := Option.some.inj hstep
      exact good_land hsane h hn
  · cases hstep

/-! ### The condition -/

/-- No end of the run is on the record, or handed over and still to land. -/
def NoEnd (cfg : Config) (w : World) (run : String) : Prop :=
  ¬ EndedRun cfg.ids w.db run ∧
    ∀ e ∈ w.tasks.filterMap Task.inFlight ++ w.flight, ∀ job, entryEv e ≠ .closed job run

/-- Every start that was handed over is on the record. -/
def StartsLanded (w : World) : Prop :=
  ∀ e ∈ w.tasks.filterMap Task.inFlight ++ w.flight, ∀ job run, entryEv e ≠ .opened job run

/-- When a tick reads the live runs, every start is on the record, and the ends are
those it has read; when a run is ended by hand, no other end of it is there or to
land. -/
structure Steady (cfg : Config) (w : World) (a : Act) : Prop where
  reads : a = .query → ∀ now again facts, w.phase = .reading (.tick now again) .live facts →
    StartsLanded w ∧ facts.ended = (factsOf cfg.ids w.db).ended
  stops : a = .kill false → ∀ now facts st rest, w.phase = .stopping now facts (st :: rest) →
    ∀ run, st.runId = some run → World.liveOfRun facts run ≠ none → NoEnd cfg w run
  leaves : ∀ lands, a = .record lands → ∀ now handles r todo,
    w.phase = .recording now handles (r :: todo) →
      ∀ run, r.2.runId = some run → run ∈ handles → NoEnd cfg w run

theorem pend_of_landed (h : StartsLanded w) : pend w.view.starts = [] := by
  apply List.eq_nil_iff_forall_not_mem.mpr
  intro p hp
  obtain ⟨e, he, hev⟩ := List.mem_filterMap.mp hp
  have hopened : ∃ job run, entryEv e = .opened job run := by
    cases hcase : entryEv e with
    | opened job run => exact ⟨job, run, rfl⟩
    | closed job run =>
        rw [hcase] at hev
        cases hev
    | other =>
        rw [hcase] at hev
        cases hev
  obtain ⟨job, run, hopened⟩ := hopened
  rcases List.mem_append.mp he with he | he
  · obtain ⟨t, ht, hstart⟩ := List.mem_filterMap.mp he
    refine h e (List.mem_append_left _ (List.mem_filterMap.mpr ⟨t, ht, ?_⟩)) job run hopened
    obtain ⟨j, r, requested, stage⟩ := t
    cases stage with
    | starting => exact hstart
    | _ => cases hstart
  · exact h e (List.mem_append_right _ (List.mem_of_mem_filter he)) job run hopened

/-- The run of a start that has no end is live. -/
theorem live_of_noEnd {job run : String} (h : Core cfg w.view)
    (hstarted : (job, run) ∈ opens (events cfg.ids w.db)) (hno : NoEnd cfg w run) :
    (job, run) ∈ live (events cfg.ids w.db) := by
  refine Leases.mem_live.mpr ⟨hstarted, ?_⟩
  intro hclosed
  exact hno.1 ((endedRun_iff h.named).mpr hclosed)

/-! ### Phases of the loop -/

theorem less_phase {p : Phase} (h : (endings p.inFlight.toList).Sublist
    (endings w.phase.inFlight.toList)) : Less w.view { w with phase := p }.view :=
  ⟨rfl, le_rfl, .refl _, ((List.Sublist.refl _).append h).subperm, .refl _⟩

/-- The loop goes on to a phase in which it has handed over no end. -/
theorem good_phase (h : Good cfg w) {p : Phase} (hp : endings p.inFlight.toList = [])
    (hphase : GoodPhase cfg w.view p) : Good cfg { w with phase := p } := by
  refine Good.of h (h.core.less (less_phase ?_)) hphase
  rw [hp]
  exact List.nil_sublist _

theorem endings_skipping (now : ℚ) (todo : List Skip) (starts : List Start) :
    endings (Phase.skipping now todo starts).inFlight.toList = [] := by
  cases todo <;> rfl

theorem old_wake {now : ℚ} (hnow : now ≤ v.time) (h : Old cfg v (msOf now)) :
    Old cfg v (msOf (v.time + cfg.tickS)) := by
  refine h.mono (msOf_le (hnow.trans ?_))
  have hpos : (0 : ℚ) ≤ cfg.tickS := Nat.cast_nonneg _
  linarith

theorem good_sleep (h : Good cfg w) {now : ℚ} (hnow : now ≤ w.time)
    (hold : Old cfg w.view (msOf now)) : Good cfg (w.sleep cfg) :=
  good_phase h rfl (@old_wake cfg w.view now hnow hold)

theorem good_step_tick (h : Good cfg w) (hstep : step cfg w .tick = some w') : Good cfg w' := by
  simp only [step] at hstep
  split at hstep
  · next wake hsleeping =>
      split_ifs at hstep with hwake
      obtain rfl := Option.some.inj hstep
      have hold : GoodPhase cfg w.view (.sleeping wake) := hsleeping ▸ h.phase
      exact good_phase h rfl ⟨le_rfl, Old.mono hold (msOf_le hwake),
        fun hnext => Bool.noConfusion hnext⟩
  · cases hstep

theorem good_stopped (h : Good cfg w) {now : ℚ} {facts : Facts} {todo : List StopRequest}
    (hnow : now ≤ w.time) (hold : Old cfg w.view (msOf now))
    (hstarted : Started cfg w.view facts.live.entries) :
    Good cfg (w.stopped now facts todo) := by
  cases todo with
  | nil => exact good_phase h rfl ⟨hnow, hold, fun hnext => Bool.noConfusion hnext⟩
  | cons st rest => exact good_phase h rfl ⟨hnow, hold, hstarted⟩

theorem good_decide (hsane : Sane cfg) (h : Good cfg w) {now : ℚ} {facts : Facts}
    (hnow : now ≤ w.time) (hold : Old cfg w.view (msOf now))
    (hfacts : FactsGood cfg w.view facts) : Good cfg (w.decide cfg now facts) :=
  good_phase h (endings_skipping _ _ _)
    ⟨hnow, hold, startable_tick h.core hfacts hsane.names hsane.whole⟩

theorem good_raised (h : Good cfg w) {reader : Reader} {next : Query}
    {facts : Facts} (hphase : GoodPhase cfg w.view (.reading reader next facts)) :
    Good cfg (w.readRaised cfg reader) := by
  cases reader with
  | tick now again => exact good_sleep h hphase.1 hphase.2.1
  | leave now handles => exact good_phase h rfl trivial

theorem good_query (hsane : Sane cfg) (h : Good cfg w) {reader : Reader} {next : Query}
    {facts : Facts} (hreading : w.phase = .reading reader next facts)
    (hsteady : Steady cfg w .query) : Good cfg (w.query cfg reader next facts) := by
  have hphase : GoodPhase cfg w.view (.reading reader next facts) := hreading ▸ h.phase
  unfold World.query
  cases next with
  | ended =>
      rcases rowsOf_cases (endedRows cfg.ids w.db) "job.read" ⟨some cfg.ids⟩ with hrows | hrows
      · simp only [queried, hrows]
        cases reader with
        | tick now again =>
            exact good_phase h rfl ⟨hphase.1, hphase.2.1, fun hnext => Bool.noConfusion hnext⟩
        | leave now handles =>
            exact good_phase h rfl ⟨hphase.1, fun hnext => Bool.noConfusion hnext⟩
      · simp only [queried, hrows]
        exact good_raised h hphase
  | live =>
      rcases rowsOf_cases (liveRows cfg.ids w.db) "job.read" ⟨some cfg.ids⟩ with hrows | hrows
      · simp only [queried, hrows]
        cases reader with
        | tick now again =>
            -- the live runs are read while no start is on its way, and the ends that were
            -- read before still stand
            obtain ⟨hlanded, hended⟩ := hsteady.reads rfl now again facts hreading
            exact good_phase h rfl ⟨hphase.1, hphase.2.1, fun _ =>
              factsGood_read h.core (pend_of_landed hlanded) hended rfl rfl⟩
        | leave now handles =>
            refine good_phase h rfl ⟨hphase.1, fun _ => ?_⟩
            exact @started_read cfg w.view h.core { facts with
              live := (liveRows cfg.ids w.db).foldl keepLive ∅ } rfl
      · simp only [queried, hrows]
        exact good_raised h hphase
  | requested =>
      rcases rowsOf_cases (requestedRows cfg.ids w.db) "job.read" ⟨some cfg.ids⟩ with hrows | hrows
      · simp only [queried, hrows]
        cases reader with
        | tick now again =>
            obtain ⟨hnow, hold, hfacts⟩ := hphase
            obtain ⟨hlanded, hcovers, hcount, hended, hstarted⟩ := hfacts rfl
            exact good_phase h rfl ⟨hnow, hold, fun _ =>
              ⟨hlanded, hcovers, hcount, hended, hstarted⟩⟩
        | leave now handles => exact good_phase h rfl ⟨hphase.1, fun _ => hphase.2 rfl⟩
      · simp only [queried, hrows]
        exact good_raised h hphase
  | stops =>
      rcases rowsOf_cases (stopRows cfg.ids w.db) "job.read" ⟨some cfg.ids⟩ with hrows | hrows
      · simp only [queried, hrows]
        cases reader with
        | tick now again =>
            obtain ⟨hnow, hold, hfacts⟩ := hphase
            obtain ⟨hlanded, hcovers, hcount, hended, hstarted⟩ := hfacts rfl
            simp only [Except.map, Query.next, World.readDone]
            split
            · exact good_phase h rfl ⟨hnow, hold, hstarted⟩
            · exact good_decide hsane h hnow hold ⟨hlanded, hcovers, hcount, hended, hstarted⟩
        | leave now handles => exact good_phase h rfl ⟨hphase.1, hphase.2 rfl⟩
      · simp only [queried, hrows]
        exact good_raised h hphase

theorem good_step_query (hsane : Sane cfg) (h : Good cfg w) (hsteady : Steady cfg w .query)
    (hstep : step cfg w .query = some w') : Good cfg w' := by
  simp only [step] at hstep
  split at hstep
  · next reader next facts hreading =>
      obtain rfl := Option.some.inj hstep
      exact good_query hsane h hreading hsteady
  · cases hstep

/-- An end by hand that may be handed over: no other of its run is there or to land. -/
theorem take_by_hand (h : Core cfg w.view) {job run : String}
    (hstarted : (job, run) ∈ opens (events cfg.ids w.db)) (hno : NoEnd cfg w run)
    (hnew : run ∉ w.view.ends.map Prod.snd) :
    Core cfg ⟨w.db, w.time, w.view.starts, (job, run) :: w.view.ends, w.view.runs⟩ ∧
      Later cfg w.view ⟨w.db, w.time, w.view.starts, (job, run) :: w.view.ends, w.view.runs⟩ :=
  Core.take h (live_of_noEnd h hstarted hno) hnew

/-- Of a run that is not a task's, no end is to land. -/
theorem not_in_ends {run : String} (hphase : endings w.phase.inFlight.toList = [])
    (htasks : ∀ t ∈ w.tasks, t.run ≠ run)
    (hflight : ∀ e ∈ w.flight, ∀ job, entryEv e ≠ .closed job run) :
    run ∉ w.view.ends.map Prod.snd := by
  intro hmem
  obtain ⟨⟨job, run'⟩, hp, rfl⟩ := List.mem_map.mp hmem
  rcases List.mem_append.mp hp with hp | hp
  · rcases List.mem_append.mp hp with hp | hp
    · obtain ⟨t, ht, hlease⟩ := List.mem_filterMap.mp hp
      refine htasks t ht ?_
      unfold Task.lease at hlease
      split_ifs at hlease
      exact (Prod.mk.inj (Option.some.inj hlease)).2
    · obtain ⟨e, he, hev⟩ := List.mem_filterMap.mp hp
      cases hcase : entryEv e with
      | closed j r =>
          rw [hcase] at hev
          obtain ⟨-, rfl⟩ := Prod.mk.inj (Option.some.inj hev)
          exact hflight e he j hcase
      | opened j r =>
          rw [hcase] at hev
          cases hev
      | other =>
          rw [hcase] at hev
          cases hev
  · rw [hphase] at hp
    cases hp

theorem mem_liveOfRun {facts : Facts} {run : String} {r : Sigma fun _ : String => Live}
    (h : World.liveOfRun facts run = some r) :
    r ∈ facts.live.entries ∧ r.2.runId = some run :=
  ⟨List.mem_of_find?_eq_some h, by simpa using List.find?_some h⟩

theorem good_abort (h : Good cfg w) (run : String) : Good cfg (w.abort run) :=
  Good.of h (h.core.less (less_abort h.core.runs)) h.phase

theorem good_step_abort {run : String} (h : Good cfg w)
    (hstep : step cfg w (.abort run) = some w') : Good cfg w' := by
  simp only [step] at hstep
  split at hstep
  · next now handles t haborting hfind =>
      obtain rfl := Option.some.inj hstep
      exact good_phase (good_abort h run) rfl trivial
  · cases hstep

theorem good_step_aborted (h : Good cfg w) (hstep : step cfg w .aborted = some w') :
    Good cfg w' := by
  simp only [step] at hstep
  split at hstep
  · next now handles haborting hnone =>
      obtain rfl := Option.some.inj hstep
      refine good_phase h rfl ⟨?_, fun hnext => Bool.noConfusion hnext⟩
      show w.tasks.map Task.run = []
      rw [hnone]
      rfl
  · cases hstep

theorem good_kill (h : Good cfg w) {now : ℚ} {facts : Facts} {st : StopRequest}
    {rest : List StopRequest} {run : String} {killed : Bool}
    (hstopping : w.phase = .stopping now facts (st :: rest)) (hrun : st.runId = some run)
    (hsteady : Steady cfg w (.kill killed)) : Good cfg (w.kill now facts run rest killed) := by
  have hphase : GoodPhase cfg w.view (.stopping now facts (st :: rest)) := hstopping ▸ h.phase
  obtain ⟨hnow, hold, hstarted⟩ := hphase
  unfold World.kill
  split
  · exact good_stopped h hnow hold hstarted
  · next hkilled =>
      obtain rfl : killed = false := by simpa using hkilled
      have habort := good_abort h run
      have hphase' : GoodPhase cfg (w.abort run).view (.stopping now facts (st :: rest)) :=
        hstopping ▸ habort.phase
      cases hlive : World.liveOfRun facts run with
      | none => exact good_stopped habort hphase'.1 hphase'.2.1 hphase'.2.2
      | some r =>
          -- the run is live by the facts, and its task is gone, so this end is its only one
          obtain ⟨hr, hrunId⟩ := mem_liveOfRun hlive
          have hno : NoEnd cfg w run := hsteady.stops rfl now facts st rest hstopping run hrun
            (by rw [hlive]; exact Option.some_ne_none _)
          have hno' : NoEnd cfg (w.abort run) run := by
            refine ⟨hno.1, ?_⟩
            intro e he
            refine hno.2 e ?_
            rcases List.mem_append.mp he with he | he
            · obtain ⟨t, ht, hflight⟩ := List.mem_filterMap.mp he
              exact List.mem_append_left _
                (List.mem_filterMap.mpr ⟨t, List.mem_of_mem_filter ht, hflight⟩)
            · rcases List.mem_append.mp he with he | he
              · exact List.mem_append_right _ he
              · obtain ⟨t, ht, hflight⟩ := Option.bind_eq_some_iff.mp (Option.mem_toList.mp he)
                exact List.mem_append_left _
                  (List.mem_filterMap.mpr ⟨t, List.mem_of_find?_eq_some ht, hflight⟩)
          have hnew : run ∉ (w.abort run).view.ends.map Prod.snd := by
            apply not_in_ends
            · show endings w.phase.inFlight.toList = []
              rw [hstopping]
              rfl
            · intro t ht
              have ht' : t ∈ w.tasks.filter fun t => t.run ≠ run := ht
              simpa using List.of_mem_filter ht'
            · exact fun e he => hno'.2 e (List.mem_append_right _ he)
          obtain ⟨hcore, hlater⟩ := take_by_hand habort.core
            (hphase'.2.2 r hr run hrunId) hno' hnew
          have hempty : endings (w.abort run).phase.inFlight.toList = [] := by
            show endings w.phase.inFlight.toList = []
            rw [hstopping]
            rfl
          refine Good.of h (@Core.through cfg _ _ (w.abort run).view _ h.core
            (less_abort h.core.runs)
            (fun hcore => take_by_hand hcore (hphase'.2.2 r hr run hrunId) hno' hnew)
            ⟨rfl, le_rfl, .refl _, ?_, .refl _⟩)
            ⟨hnow, hold, hstarted, r.1, run, _, _, rfl⟩
          show (_ ++ [(r.1, run)]).Subperm ((r.1, run) :: (_ ++ endings _))
          rw [hempty, List.append_nil]
          exact (List.perm_append_singleton _ _).subperm

theorem good_step_kill {killed : Bool} (h : Good cfg w) (hsteady : Steady cfg w (.kill killed))
    (hstep : step cfg w (.kill killed) = some w') : Good cfg w' := by
  simp only [step] at hstep
  split at hstep
  · next now facts st rest hstopping =>
      have hphase : GoodPhase cfg w.view (.stopping now facts (st :: rest)) :=
        hstopping ▸ h.phase
      split at hstep
      · next run hrun =>
          obtain rfl := Option.some.inj hstep
          exact good_kill h hstopping hrun hsteady
      · obtain rfl := Option.some.inj hstep
        exact good_sleep h hphase.1 hphase.2.1
  · cases hstep

theorem good_close (hsane : Sane cfg) (h : Good cfg w) {now : ℚ} {facts : Facts} {e : Entry}
    {rest : List StopRequest} (hclosing : w.phase = .closing now facts rest e) :
    Good cfg ((w.append cfg e).stopped now facts rest) := by
  have hphase : GoodPhase cfg w.view (.closing now facts rest e) := hclosing ▸ h.phase
  obtain ⟨hnow, hold, hstarted, job, run, outcome, more, rfl⟩ := hphase
  have hends : w.view.ends = (w.tasks.filterMap Task.lease ++ endings w.flight) ++
      [(job, run)] := by
    show _ ++ endings w.phase.inFlight.toList = _
    rw [hclosing]
    rfl
  have hnone : ∀ p : Phase, p.inFlight = none →
      ({ w.append cfg (.runEnded job run outcome more) with phase := p } : World).view.ends =
        w.tasks.filterMap Task.lease ++ endings w.flight := by
    intro p hp
    show _ ++ endings p.inFlight.toList = _
    rw [hp]
    exact List.append_nil _
  have hgood : ∀ p : Phase, p.inFlight = none → GoodPhase cfg w.view p →
      Good cfg { w.append cfg (.runEnded job run outcome more) with phase := p } := by
    intro p hp hgood
    refine Good.of h (@Core.through cfg _ _
      ⟨w.db, w.time, w.view.starts,
        (job, run) :: (w.tasks.filterMap Task.lease ++ endings w.flight), w.view.runs⟩ _ h.core
      ⟨rfl, le_rfl, .refl _, ?_, .refl _⟩ (Core.closed hsane.own)
      ⟨rfl, le_rfl, .refl _, ?_, .refl _⟩) hgood
    · rw [hends]
      exact (List.perm_append_singleton _ _).symm.subperm
    · rw [hnone p hp]
  cases rest with
  | nil => exact hgood _ rfl ⟨hnow, hold, fun hnext => Bool.noConfusion hnext⟩
  | cons st rest => exact hgood _ rfl ⟨hnow, hold, hstarted⟩

theorem good_step_close (hsane : Sane cfg) {lands : Bool} (h : Good cfg w)
    (hstep : step cfg w (.close lands) = some w') : Good cfg w' := by
  simp only [step] at hstep
  split at hstep
  · next now facts rest e hclosing =>
      have hphase : GoodPhase cfg w.view (.closing now facts rest e) := hclosing ▸ h.phase
      split_ifs at hstep with hlands
      · obtain rfl := Option.some.inj hstep
        exact good_close hsane h hclosing
      · obtain rfl := Option.some.inj hstep
        exact good_sleep h hphase.1 hphase.2.1
  · cases hstep

theorem good_skip (hsane : Sane cfg) (h : Good cfg w) {now : ℚ} {sk : Skip} {todo : List Skip}
    {starts : List Start} (hskipping : w.phase = .skipping now (sk :: todo) starts) :
    Good cfg { w.append cfg (skipEntry sk) with phase := .skipping now todo starts } := by
  have hphase : GoodPhase cfg w.view (.skipping now (sk :: todo) starts) := hskipping ▸ h.phase
  have hnoted := h.core.noted hsane.own (e := skipEntry sk) rfl
  refine good_phase (w := w.append cfg (skipEntry sk)) ⟨hnoted.1, h.phase.later hnoted.2, h.clock⟩
    (endings_skipping _ _ _) ?_
  exact GoodPhase.later (p := .skipping now todo starts) hnoted.2 hphase

theorem good_step_skip (hsane : Sane cfg) {lands : Bool} (h : Good cfg w)
    (hstep : step cfg w (.skip lands) = some w') : Good cfg w' := by
  simp only [step] at hstep
  split at hstep
  · next now sk todo starts hskipping =>
      have hphase : GoodPhase cfg w.view (.skipping now (sk :: todo) starts) :=
        hskipping ▸ h.phase
      split_ifs at hstep with hlands
      · obtain rfl := Option.some.inj hstep
        exact good_skip hsane h hskipping
      · obtain rfl := Option.some.inj hstep
        exact good_sleep h hphase.1 hphase.2.1
  · cases hstep

theorem good_record (hsane : Sane cfg) (h : Good cfg w) {now : ℚ} {handles : List String}
    {r : Sigma fun _ : String => Live} {todo : List (Sigma fun _ : String => Live)} {run : String}
    (hrecording : w.phase = .recording now handles (r :: todo)) (hrun : r.2.runId = some run)
    (hhandle : run ∈ handles) (hsteady : Steady cfg w (.record true)) :
    Good cfg { w.append cfg (endEntry now r.1 run "stopped" r.2) with
      phase := .recording now handles todo } := by
  have hphase : GoodPhase cfg w.view (.recording now handles (r :: todo)) := hrecording ▸ h.phase
  obtain ⟨hruns, hstarted⟩ := hphase
  have hno : NoEnd cfg w run :=
    hsteady.leaves true rfl now handles r todo hrecording run hrun hhandle
  have hempty : endings w.phase.inFlight.toList = [] := by
    rw [hrecording]
    rfl
  have htasks : w.tasks = [] := List.map_eq_nil_iff.mp hruns
  have hnew : run ∉ w.view.ends.map Prod.snd := by
    apply not_in_ends hempty
    · rw [htasks]
      exact fun t ht => absurd ht List.not_mem_nil
    · exact fun e he => hno.2 e (List.mem_append_right _ he)
  have hopens := hstarted r List.mem_cons_self run hrun
  obtain ⟨hcore, hl⟩ := @Core.closed w.db cfg _ _ _ _ r.1 run "stopped"
    [("took_s", .num (.float (now - r.2.started)))] hsane.own
    (take_by_hand h.core hopens hno hnew).1
  refine Good.of h (@Core.through cfg w.view _ w.view _ h.core
    ⟨rfl, le_rfl, .refl _, .refl _, .refl _⟩
    (fun _ => ⟨hcore, hl.time, hl.granted, hl.opened, hl.live, hl.ends, hl.used, hl.handles⟩)
    ⟨rfl, le_rfl, .refl _, ?_, .refl _⟩)
    ⟨hruns, fun r' hr' => hstarted r' (List.mem_cons_of_mem _ hr')⟩
  show (_ ++ _ ++ []).Subperm (_ ++ _ ++ endings w.phase.inFlight.toList)
  rw [hempty]
  exact .refl _

theorem good_step_record (hsane : Sane cfg) {lands : Bool} (h : Good cfg w)
    (hsteady : Steady cfg w (.record lands)) (hstep : step cfg w (.record lands) = some w') :
    Good cfg w' := by
  simp only [step] at hstep
  split at hstep
  · obtain rfl := Option.some.inj hstep
    exact good_phase h rfl trivial
  · next now handles r todo hrecording =>
      have hphase : GoodPhase cfg w.view (.recording now handles (r :: todo)) :=
        hrecording ▸ h.phase
      have hrest : Started cfg w.view todo :=
        fun r' hr' => hphase.2 r' (List.mem_cons_of_mem _ hr')
      split at hstep
      · next run hrun =>
          split_ifs at hstep with hhandle hlands
          · obtain rfl := Option.some.inj hstep
            obtain rfl := hlands
            exact good_record hsane h hrecording hrun hhandle hsteady
          · obtain rfl := Option.some.inj hstep
            exact good_phase h rfl trivial
          · obtain rfl := Option.some.inj hstep
            exact good_phase h rfl ⟨hphase.1, hrest⟩
      · obtain rfl := Option.some.inj hstep
        exact good_phase h rfl ⟨hphase.1, hrest⟩
  · cases hstep

/-! ### Run ids -/

theorem toList_runId (job : String) (ms : ℕ) :
    (runId job ms).toList = job.toList ++ '-' :: (toString ms).toList := by
  simp [runId, String.toList_append]

theorem dash_not_mem (ms : ℕ) : '-' ∉ (toString ms).toList := by
  intro hmem
  have hdigit := @Nat.isDigit_of_mem_toDigits 10 ms '-' (by decide) (by decide)
    (by simpa using hmem)
  exact absurd hdigit (by decide)

/-- A run id says the time it was made, after its last dash. -/
theorem runId_inj {job job' : String} {ms ms' : ℕ} (h : runId job ms = runId job' ms') :
    ms = ms' := by
  have hafter : ∀ (job : String) (ms : ℕ),
      (runId job ms).toList.reverse.takeWhile (· ≠ '-') = (toString ms).toList.reverse := by
    intro job ms
    rw [toList_runId, List.reverse_append, List.reverse_cons, List.append_assoc]
    rw [List.takeWhile_append_of_pos]
    · simp
    · intro c hc
      have hne : c ≠ '-' := by
        rintro rfl
        exact dash_not_mem ms (List.mem_reverse.mp hc)
      exact decide_eq_true hne
  have hsame := hafter job ms
  rw [h, hafter] at hsame
  have hdigits : Nat.toDigits 10 ms' = Nat.toDigits 10 ms := by
    have hlists := List.reverse_injective hsame
    simpa using hlists
  have hvalue := congrArg (fun l => Nat.ofDigitChars 10 l 0) hdigits
  simpa using hvalue.symm

theorem runId_job_inj {job job' : String} {ms : ℕ} (h : runId job ms = runId job' ms) :
    job = job' := by
  have hlist := congrArg String.toList h
  rw [toList_runId, toList_runId] at hlist
  exact String.toList_inj.mp (List.append_cancel_right hlist)

/-! ### Starting what a tick decided -/

/-- The starts that the tasks of a tick hand over. -/
def startEntries (now : ℚ) (starts : List Start) : List Entry :=
  starts.map fun s => (World.taskOf now s).startEntry

section Spawn

variable {now : ℚ} {starts : List Start}

theorem pend_startEntries : pend (startEntries now starts) =
    starts.map fun s => (s.decl.name, runId s.decl.name (msOf now)) := by
  rw [pend, startEntries, List.filterMap_map, ← List.filterMap_eq_map]
  rfl

theorem view_spawn (hskipping : w.phase = .skipping now [] starts) :
    ({ w with tasks := starts.map (World.taskOf now) ++ w.tasks }.sleep cfg).view =
      ⟨w.db, w.time, startEntries now starts ++ w.view.starts, w.view.ends,
        (starts.map fun s => runId s.decl.name (msOf now)) ++ w.view.runs⟩ := by
  have hstarts : (starts.map (World.taskOf now)).filterMap Task.start =
      startEntries now starts := by
    rw [startEntries, List.filterMap_map, ← List.filterMap_eq_map]
    rfl
  have hleases : (starts.map (World.taskOf now)).filterMap Task.lease = [] := by
    rw [List.filterMap_map]
    exact List.filterMap_eq_nil_iff.mpr fun s _ => rfl
  unfold World.view World.sleep
  simp only [List.filterMap_append, hstarts, hleases, List.nil_append, List.append_assoc,
    hskipping, List.map_append, List.map_map]
  rfl

/-- The next tick makes run ids of a later time. -/
theorem msOf_lt_next (hsane : Sane cfg) {time : ℚ} (hclock : 0 ≤ time) (hnow : now ≤ time) :
    msOf now < msOf (time + cfg.tickS) := by
  have htick : (1 : ℚ) ≤ cfg.tickS := by exact_mod_cast hsane.tick
  have hlater : ⌊now * 1000⌋ + 1000 ≤ ⌊(time + cfg.tickS) * 1000⌋ := by
    have hmono := Int.floor_mono (show now * 1000 + (1000 : ℤ) ≤ (time + cfg.tickS) * 1000 by
      push_cast
      linarith)
    rwa [Int.floor_add_intCast] at hmono
  have hpos : (1000 : ℤ) ≤ ⌊(time + cfg.tickS) * 1000⌋ := by
    apply Int.le_floor.mpr
    push_cast
    linarith
  unfold msOf
  omega

theorem unasked_startEntry {s : Start} {job : String}
    (h : unasked (World.taskOf now s).startEntry = some job) :
    s.requested = none ∧ s.decl.name = job := by
  cases hrequested : s.requested with
  | none =>
      simp only [World.taskOf, Task.startEntry, hrequested, unasked] at h
      exact ⟨rfl, Option.some.inj h⟩
  | some seq => simp [World.taskOf, Task.startEntry, hrequested, unasked, Obj.get?] at h

/-- The runs to come, one for each start and all of now, are granted at once. -/
theorem core_spawn (h : Core cfg v) (hstarts : Startable cfg v now starts)
    (hold : Old cfg v (msOf now)) (hnow : now ≤ v.time) :
    Core cfg ⟨v.db, v.time, startEntries now starts ++ v.starts, v.ends,
      (starts.map fun s => runId s.decl.name (msOf now)) ++ v.runs⟩ := by
  have hnew : ∀ s ∈ starts, ¬ Used cfg v (runId s.decl.name (msOf now)) :=
    fun s _ => hold _ _ le_rfl
  have hkeys : (starts.map fun s => runId s.decl.name (msOf now)).Nodup := by
    -- one time for all of them, so their names alone tell their ids apart
    have hinj : Function.Injective fun name => runId name (msOf now) := fun a b => runId_job_inj
    have := hstarts.names.map hinj
    rwa [List.map_map] at this
  refine ⟨h.named, h.times, h.past, ?_, ?_, h.paced, ?_⟩
  · show Leases.Inv _ ⟨_, pend (_ ++ _), _⟩
    rw [pend, List.filterMap_append]
    show Leases.Inv _ ⟨_, pend (startEntries now starts) ++ pend _, _⟩
    rw [pend_startEntries]
    refine h.leases.grant ?_ ?_ ?_ ?_ ?_ ?_
    · rw [List.map_map]
      exact hstarts.names
    · intro p hp hlive
      obtain ⟨s, hs, rfl⟩ := List.mem_map.mp hp
      rw [hstarts.landed, List.nil_append] at hlive
      exact hstarts.idle s hs hlive
    · rw [hstarts.landed, List.nil_append, List.length_map]
      exact hstarts.room
    · rw [List.map_map]
      exact hkeys
    · intro p hp hused
      obtain ⟨s, hs, rfl⟩ := List.mem_map.mp hp
      exact hnew s hs (.inr (.inl hused))
    · intro p hp hclosed
      obtain ⟨s, hs, rfl⟩ := List.mem_map.mp hp
      exact hnew s hs (.inr (.inr hclosed))
  · refine List.nodup_append.mpr ⟨hkeys, h.runs, ?_⟩
    rintro a ha b hb rfl
    obtain ⟨s, hs, rfl⟩ := List.mem_map.mp ha
    exact hnew s hs (.inl hb)
  · intro e he job hjob
    rcases List.mem_append.mp he with he | he
    · obtain ⟨s, hs, rfl⟩ := List.mem_map.mp he
      obtain ⟨hrequested, rfl⟩ := unasked_startEntry hjob
      exact (hstarts.rested s hs hrequested).mono (msOf_le hnow)
    · exact h.rested e he job hjob

/-- The runs to come are of now. -/
theorem old_spawn {ms : ℕ} (hold : Old cfg v (msOf now)) (hms : msOf now < ms) :
    Old cfg ⟨v.db, v.time, startEntries now starts ++ v.starts, v.ends,
      (starts.map fun s => runId s.decl.name (msOf now)) ++ v.runs⟩ ms := by
  intro job ms' hms' hused
  have hlt : msOf now < ms' := Nat.lt_of_lt_of_le hms hms'
  have hnot : ∀ s : Start, runId job ms' ≠ runId s.decl.name (msOf now) := by
    intro s heq
    exact absurd (runId_inj heq) (Nat.ne_of_gt hlt)
  rcases hused with hused | hused | hused
  · rcases List.mem_append.mp hused with hused | hused
    · obtain ⟨s, -, heq⟩ := List.mem_map.mp hused
      exact hnot s heq.symm
    · exact hold job ms' hlt.le (.inl hused)
  · obtain ⟨p, hp, heq⟩ := List.mem_map.mp hused
    rcases List.mem_append.mp hp with hp | hp
    · rw [pend, List.filterMap_append] at hp
      rcases List.mem_append.mp hp with hp | hp
      · change p ∈ pend (startEntries now starts) at hp
        rw [pend_startEntries] at hp
        obtain ⟨s, -, rfl⟩ := List.mem_map.mp hp
        exact hnot s heq.symm
      · exact hold job ms' hlt.le
          (.inr (.inl (List.mem_map.mpr ⟨p, List.mem_append_left _ hp, heq⟩)))
    · exact hold job ms' hlt.le
        (.inr (.inl (List.mem_map.mpr ⟨p, List.mem_append_right _ hp, heq⟩)))
  · exact hold job ms' hlt.le (.inr (.inr hused))

theorem good_spawn (hsane : Sane cfg) (h : Good cfg w)
    (hskipping : w.phase = .skipping now [] starts) :
    Good cfg ({ w with tasks := starts.map (World.taskOf now) ++ w.tasks }.sleep cfg) := by
  have hphase : GoodPhase cfg w.view (.skipping now [] starts) := hskipping ▸ h.phase
  obtain ⟨hnow, hold, hstarts⟩ := hphase
  refine ⟨?_, ?_, h.clock⟩
  · rw [view_spawn hskipping]
    exact core_spawn h.core hstarts hold hnow
  · show Old cfg _ (msOf (w.time + cfg.tickS))
    rw [view_spawn hskipping]
    exact old_spawn hold (msOf_lt_next hsane h.clock hnow)

end Spawn

theorem good_step_spawn (hsane : Sane cfg) (h : Good cfg w) (hstep : step cfg w .spawn = some w') :
    Good cfg w' := by
  simp only [step] at hstep
  split at hstep
  · next now starts hskipping =>
      obtain rfl := Option.some.inj hstep
      exact good_spawn hsane h hskipping
  · cases hstep

/-! ### Leaving -/

theorem good_leave (h : Good cfg w) :
    Good cfg { w with
      phase := .aborting w.time [], flight := w.flight ++ w.phase.inFlight.toList } := by
  have hnone : startsIn w.phase.inFlight.toList = [] := by
    cases hp : w.phase with
    | closing now facts todo e =>
        have hphase : GoodPhase cfg w.view (.closing now facts todo e) := hp ▸ h.phase
        obtain ⟨-, -, -, job, run, outcome, more, rfl⟩ := hphase
        rfl
    | skipping now todo starts => cases todo <;> rfl
    | _ => rfl
  refine Good.of h (h.core.less ⟨rfl, le_rfl, ?_, ?_, .refl _⟩) trivial
  · show (_ ++ startsIn (w.flight ++ _)).Subperm _
    rw [startsIn, List.filter_append]
    show (_ ++ (startsIn w.flight ++ startsIn w.phase.inFlight.toList)).Subperm _
    rw [hnone, List.append_nil]
    exact .refl _
  · show (_ ++ endings (w.flight ++ w.phase.inFlight.toList) ++ []).Subperm _
    rw [List.append_nil, endings, List.filterMap_append, ← List.append_assoc]
    exact .refl _

theorem good_step_leave (h : Good cfg w) (hstep : step cfg w .leave = some w') : Good cfg w' := by
  simp only [step] at hstep
  split_ifs at hstep with hleaving
  obtain rfl := Option.some.inj hstep
  exact good_leave h

/-! ### A step -/

/-- **What a step keeps**, where it meets the condition. -/
theorem good_step (hsane : Sane cfg) {a : Act} (h : Good cfg w) (hsteady : Steady cfg w a)
    (hstep : step cfg w a = some w') : Good cfg w' := by
  cases a with
  | wait => exact good_step_wait h hstep
  | tick => exact good_step_tick h hstep
  | query => exact good_step_query hsane h hsteady hstep
  | kill => exact good_step_kill h hsteady hstep
  | close => exact good_step_close hsane h hstep
  | skip => exact good_step_skip hsane h hstep
  | spawn => exact good_step_spawn hsane h hstep
  | start => exact good_step_start hsane h hstep
  | answer => exact good_step_answer h hstep
  | raise => exact good_step_raise h hstep
  | finish => exact good_step_finish hsane h hstep
  | drop => exact good_step_drop h hstep
  | land => exact good_step_land hsane h hstep
  | ask => exact good_step_ask hsane h hstep
  | check => exact good_step_check h hstep
  | stop => exact good_step_stop hsane h hstep
  | leave => exact good_step_leave h hstep
  | abort => exact good_step_abort h hstep
  | aborted => exact good_step_aborted h hstep
  | record => exact good_step_record hsane h hsteady hstep

/-! ### One run each -/

/-- One live run per job, at most `maxRuns` of them, one end per run, and no start
that answers no request sooner than `every` after an end of its job. -/
structure OneRunEach (cfg : Config) (db : Database) : Prop where
  never : ∀ before s mid s' after, db = before ++ s :: (mid ++ s' :: after) →
    IsStart cfg.ids s → IsStart cfg.ids s' → jobName s = jobName s' →
      ∃ e ∈ mid, IsEnd cfg.ids e ∧ runName e = runName s
  room : (unended cfg.ids db "run_started").length ≤ cfg.maxRuns
  once : ((ofKind cfg.ids db "run_ended").map runName).Nodup
  paced : db.Pairwise (Paced cfg)

/-- A manager that begins: its record is in order, no run on it is live, as
reconciling leaves it, and no run id there is of a time to come. -/
structure Begun (cfg : Config) (w : World) : Prop where
  asleep : w.phase = .sleeping w.time
  tasks : w.tasks = []
  flight : w.flight = []
  clock : 0 ≤ w.time
  named : ∀ row ∈ w.db, Named row
  times : w.db.Pairwise fun a b => a.event.epochMs ≤ b.event.epochMs
  past : ∀ row ∈ w.db, row.event.epochMs ≤ msOf w.time
  each : OneRunEach cfg w.db
  idle : unended cfg.ids w.db "run_started" = []
  starts : ((ofKind cfg.ids w.db "run_started").map runName).Nodup
  later : w.db.Pairwise fun a b => IsEnd cfg.ids a → IsStart cfg.ids b → runName a ≠ runName b
  old : ∀ row ∈ w.db, IsStart cfg.ids row ∨ IsEnd cfg.ids row →
    ∀ job ms, msOf w.time ≤ ms → runName row ≠ runId job ms

theorem evOf_opened {row : Row} {job run : String} :
    evOf ids row = .opened job run ↔
      IsStart ids row ∧ jobName row = job ∧ runName row = run := by
  unfold evOf
  split_ifs with hstart hend
  · simp [hstart]
  · simp [hstart]
  · simp [hstart]

theorem evOf_closed {row : Row} {job run : String} (h : evOf ids row = .closed job run) :
    IsEnd ids row ∧ jobName row = job ∧ runName row = run := by
  unfold evOf at h
  split_ifs at h with hstart hend
  obtain ⟨hjob, hrun⟩ := Ev.closed.inj h
  exact ⟨hend, hjob, hrun⟩

theorem evOf_end {row : Row} (h : IsEnd ids row) :
    evOf ids row = .closed (jobName row) (runName row) := by
  have hstart : ¬ IsStart ids row := by
    intro hstart
    have hne : "run_started" ≠ "run_ended" := by decide
    exact hne (hstart.2.symm.trans h.2)
  rw [evOf, if_neg hstart, if_pos h]

theorem closes_events : closes (events ids db) =
    (ofKind ids db "run_ended").map fun e => (jobName e, runName e) := by
  rw [closes, events, List.filterMap_map, ofKind, ← List.filterMap_eq_map, List.filterMap_filter]
  apply List.filterMap_congr
  intro row _
  show (evOf ids row).closing = _
  by_cases hend : IsEnd ids row
  · have hin : row.stream ∈ ids ∧ row.event.kind = "run_ended" := hend
    simp only [evOf_end hend, Ev.closing, hin, and_self, decide_true]
    rfl
  · have hout : ¬ (row.stream ∈ ids ∧ row.event.kind = "run_ended") := hend
    simp only [decide_false, hout, Bool.false_eq_true]
    unfold evOf
    rw [if_neg hend]
    split <;> rfl

theorem closed_runs : (closes (events ids db)).map Prod.snd =
    (ofKind ids db "run_ended").map runName := by
  rw [closes_events, List.map_map]
  rfl

/-- The record of a good world. -/
theorem Core.oneRunEach (h : Core cfg v) : OneRunEach cfg v.db where
  never := by
    intro before s mid s' after hdb hs hs' hjob
    have hevents : events cfg.ids v.db = events cfg.ids before ++
        .opened (jobName s) (runName s) :: (events cfg.ids mid ++
          .opened (jobName s) (runName s') :: events cfg.ids after) := by
      rw [hdb, events, List.map_append, List.map_cons, List.map_append, List.map_cons,
        evOf_opened.mpr ⟨hs, rfl, rfl⟩, evOf_opened.mpr ⟨hs', hjob.symm, rfl⟩]
      rfl
    obtain ⟨e, he, hrun⟩ := closed_events.mp (h.leases.never _ _ _ _ _ _ hevents)
    obtain ⟨hmem, hend⟩ := mem_ofKind.mp he
    exact ⟨e, hmem, hend, hrun⟩
  room := by
    have hroom : (pend v.starts ++ live (events cfg.ids v.db)).length ≤ cfg.maxRuns :=
      h.leases.room
    rw [List.length_append, live_events h.named, List.length_map] at hroom
    omega
  once := by
    rw [← closed_runs]
    exact h.leases.once
  paced := h.paced

theorem leases_of_begun (h : Begun cfg w) :
    Leases.Inv cfg.maxRuns ⟨events cfg.ids w.db, pend [], []⟩ := by
  have hlive : live (events cfg.ids w.db) = [] := by
    rw [live_events h.named, h.idle]
    rfl
  constructor
  · show ((pend [] ++ live (events cfg.ids w.db)).map Prod.fst).Nodup
    rw [hlive]
    exact List.nodup_nil
  · show (pend [] ++ live (events cfg.ids w.db)).length ≤ _
    rw [hlive]
    exact Nat.zero_le _
  · show ((opens (events cfg.ids w.db)).map Prod.snd).Nodup
    rw [opens_events, List.map_map]
    exact h.starts
  · intro p hp
    cases hp
  · intro e he
    cases he
  · exact List.nodup_nil
  · show ((closes (events cfg.ids w.db)).map Prod.snd).Nodup
    rw [closed_runs]
    exact h.each.once
  · refine List.pairwise_map.mpr (h.later.imp ?_)
    intro a b hab i k hclosed j hopened
    obtain ⟨hend, -, hrun⟩ := evOf_closed hclosed
    obtain ⟨hstart, -, hrun'⟩ := evOf_opened.mp hopened
    exact hab hend hstart (hrun.trans hrun'.symm)
  · intro before i k mid k' after hevents
    obtain ⟨b, rest, hdb, rfl, hrest⟩ := List.map_eq_append_iff.mp hevents
    obtain ⟨s, rest', rfl, hs, hrest'⟩ := List.map_eq_cons_iff.mp hrest
    obtain ⟨m, rest'', rfl, rfl, hrest''⟩ := List.map_eq_append_iff.mp hrest'
    obtain ⟨s', a, rfl, hs', rfl⟩ := List.map_eq_cons_iff.mp hrest''
    obtain ⟨hstart, hjob, hrun⟩ := evOf_opened.mp hs
    obtain ⟨hstart', hjob', -⟩ := evOf_opened.mp hs'
    obtain ⟨e, he, hend, hrun'⟩ :=
      h.each.never b s m s' a hdb hstart hstart' (hjob.trans hjob'.symm)
    exact closed_events.mpr ⟨e, mem_ofKind.mpr ⟨he, hend⟩, hrun'.trans hrun⟩

theorem good_of_begun (h : Begun cfg w) : Good cfg w := by
  have hview : w.view = ⟨w.db, w.time, [], [], []⟩ := by
    unfold World.view
    rw [h.tasks, h.flight, h.asleep]
    rfl
  refine ⟨?_, ?_, h.clock⟩
  · rw [hview]
    exact ⟨h.named, h.times, h.past, leases_of_begun h, List.nodup_nil, h.each.paced,
      fun e he => absurd he List.not_mem_nil⟩
  · rw [h.asleep]
    intro job ms hms hused
    rw [hview] at hused
    rcases hused with hused | hused | hused
    · cases hused
    · obtain ⟨o, ho, hrun⟩ := List.mem_map.mp hused
      change o ∈ opens (events cfg.ids w.db) at ho
      rw [opens_events] at ho
      obtain ⟨s, hs, rfl⟩ := List.mem_map.mp ho
      obtain ⟨hdb, hstart⟩ := mem_ofKind.mp hs
      exact h.old s hdb (.inl hstart) job ms hms hrun
    · obtain ⟨e, he, hrun⟩ := closed_events.mp hused
      obtain ⟨hdb, hend⟩ := mem_ofKind.mp he
      exact h.old e hdb (.inr hend) job ms hms hrun

/-- **One live run per job and one end per run**, in every record that is reached by
steps that meet the condition, in any order.  An append lands some time after it was
handed over, so what the manager reads may be behind what it has done; `Steady` asks
that it is not where a tick counts the live runs and where a run is ended by hand. -/
theorem one_run_each {w₀ : World} (hsane : Sane cfg) (hbegun : Begun cfg w₀)
    (h : Steps.Run (step cfg) (Steady cfg) w₀ w) : OneRunEach cfg w.db := by
  have hgood : Good cfg w := h.inv (good_of_begun hbegun)
    fun _ _ _ hgood hsteady hstep => good_step hsane hgood hsteady hstep
  exact hgood.core.oneRunEach

/-- The steps the condition is about. -/
def Act.isWatched : Act → Bool
  | query | kill _ | record _ => true
  | _ => false

theorem steady_of_other {a : Act} (h : a.isWatched = false) : Steady cfg w a where
  reads ha := by
    rw [ha] at h
    cases h
  stops ha := by
    rw [ha] at h
    cases h
  leaves lands ha := by
    rw [ha] at h
    cases h

/-- One job, that may start a second after its last end. -/
def drainConfig : Config := ⟨"now", ["now"], [⟨"drain", some 1⟩], 1, 1⟩

/-- A manager that has recorded nothing. -/
def freshWorld : World := ⟨[], 0, .sleeping 0, [], [], []⟩

theorem drainConfig_sane : Sane drainConfig := by
  refine ⟨by decide, by decide, by decide, ?_⟩
  intro d hd every hevery
  obtain rfl := List.mem_singleton.mp hd
  obtain rfl := Option.some.inj hevery
  exact ⟨1000, by norm_num⟩

theorem freshWorld_begun : Begun drainConfig freshWorld where
  asleep := rfl
  tasks := rfl
  flight := rfl
  clock := le_rfl
  named row hrow := absurd hrow List.not_mem_nil
  times := List.Pairwise.nil
  past row hrow := absurd hrow List.not_mem_nil
  each := by
    refine ⟨?_, Nat.zero_le _, List.nodup_nil, List.Pairwise.nil⟩
    intro before s mid s' after hdb
    exact absurd hdb.symm (by simp [freshWorld])
  idle := rfl
  starts := List.nodup_nil
  later := List.Pairwise.nil
  old row hrow := absurd hrow List.not_mem_nil

/-- The first read of the first tick, before one of its statements. -/
def firstRead (next : Query) : World :=
  { freshWorld with phase := .reading (.tick 0 false) next noFacts }

theorem steady_firstRead (next : Query) : Steady drainConfig (firstRead next) .query where
  reads _ now again facts hphase := by
    cases hphase
    refine ⟨?_, rfl⟩
    intro e he
    exact absurd he List.not_mem_nil
  stops h := by cases h
  leaves lands h := by cases h

theorem step_firstRead {next next' : Query} (h : next.next = some next') :
    step drainConfig (firstRead next) .query = some (firstRead next') := by
  cases next with
  | stops => cases h
  | _ =>
      obtain rfl := Option.some.inj h
      rfl

theorem run_firstRead :
    Steps.Run (step drainConfig) (Steady drainConfig) freshWorld (firstRead .stops) := by
  have htick : step drainConfig freshWorld .tick = some (firstRead .ended) := rfl
  have hended : Steps.Run (step drainConfig) (Steady drainConfig) freshWorld
      (firstRead .ended) := .step .init (steady_of_other rfl) htick
  have hlive := hended.step (steady_firstRead .ended) (step_firstRead rfl)
  have hrequested := hlive.step (steady_firstRead .live) (step_firstRead rfl)
  exact hrequested.step (steady_firstRead .requested) (step_firstRead rfl)

/-- The tick starts a run, that starts, answers and ends. -/
def oneRun : List Act :=
  [.spawn, .start "drain-0" true, .answer "drain-0" "ok" [], .finish "drain-0" true]

theorem one_run_each_drain : ∃ w,
    Steps.after (step drainConfig) (firstRead .stops) (.query :: oneRun) = some w ∧
      w.db.map (fun row => row.event.kind) = ["run_started", "run_ended"] ∧
      OneRunEach drainConfig w.db := by
  obtain ⟨w, hw, hkinds⟩ : ∃ w,
      Steps.after (step drainConfig) (firstRead .stops) (.query :: oneRun) = some w ∧
        w.db.map (fun row => row.event.kind) = ["run_started", "run_ended"] := by
    have hkinds : (Steps.after (step drainConfig) (firstRead .stops) (.query :: oneRun)).map
        (fun w => w.db.map fun row => row.event.kind) = some ["run_started", "run_ended"] := by
      decide +kernel
    exact Option.map_eq_some_iff.mp hkinds
  obtain ⟨w₁, hstep, hrest⟩ := Option.bind_eq_some_iff.mp hw
  have hdecided := run_firstRead.step (steady_firstRead .stops) hstep
  have hother : ∀ a ∈ oneRun, a.isWatched = false := by decide
  have hrun := hdecided.each (fun a ha _ => steady_of_other (hother a ha)) hrest
  exact ⟨w, hw, hkinds, one_run_each drainConfig_sane freshWorld_begun hrun⟩

/-- A tick that starts what is due. -/
def tickOnce : List Act := [.tick, .query, .query, .query, .query, .spawn]

/-- The second tick reads before the start of the first one's run has landed. -/
def lateStart : List Act :=
  tickOnce ++ [.wait 1] ++ tickOnce ++ [.start "drain-0" true, .start "drain-1000" true]

/-- A job has a run, and another beside it. -/
theorem late_start_overlaps : ¬ ∀ (cfg : Config) (w₀ w : World), Sane cfg → Begun cfg w₀ →
    Steps.Run (step cfg) (fun _ _ => True) w₀ w → OneRunEach cfg w.db := by
  intro hall
  obtain ⟨w, hw, hlive⟩ : ∃ w, Steps.after (step drainConfig) freshWorld lateStart = some w ∧
      (unended ["now"] w.db "run_started").length = 2 := by
    have htwo : (Steps.after (step drainConfig) freshWorld lateStart).map
        (fun w => (unended ["now"] w.db "run_started").length) = some 2 := by decide +kernel
    exact Option.map_eq_some_iff.mp htwo
  have hroom := (hall drainConfig freshWorld w drainConfig_sane freshWorld_begun
    (Steps.Run.init.each (fun _ _ _ => trivial) hw)).room
  change (unended ["now"] w.db "run_started").length ≤ 1 at hroom
  omega

end AgentBlock.Serve
