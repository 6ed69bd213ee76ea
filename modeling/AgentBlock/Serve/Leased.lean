/-
AgentBlock/Serve/Leased.lean

The record of the job manager as a log of leases: a job leases its run.

A `View` is the record with what has still to land, and `Core` is what holds of
it whatever lands next: what the loop and the tasks do is one of a few changes of
a view.
-/
import AgentBlock.Serve.Manager

namespace AgentBlock.Serve

open Job
open Knl (Database Row stringField appendRow)
open Leases (Ev opens live Closed closes)

/-! ### The record as a log of leases -/

section Defs

variable (ids : List String)

def IsStart (row : Row) : Prop := row.stream ∈ ids ∧ row.event.kind = "run_started"

def IsEnd (row : Row) : Prop := row.stream ∈ ids ∧ row.event.kind = "run_ended"

instance : DecidablePred (IsStart ids) := fun row => by
  unfold IsStart
  infer_instance

instance : DecidablePred (IsEnd ids) := fun row => by
  unfold IsEnd
  infer_instance

/-- A job leases its run. -/
def evOf (row : Row) : Ev String String :=
  if IsStart ids row then .opened (jobName row) (runName row)
  else if IsEnd ids row then .closed (jobName row) (runName row)
  else .other

def events (db : Database) : List (Ev String String) := db.map (evOf ids)

end Defs

/-- The same of what is to be appended. -/
def entryEv : Entry → Ev String String
  | .runStarted job run _ => .opened job run
  | .runEnded job run _ _ => .closed job run
  | _ => .other

variable {ids : List String} {db : Database}

theorem opens_events :
    opens (events ids db) = (ofKind ids db "run_started").map fun s => (jobName s, runName s) := by
  rw [opens, events, List.filterMap_map, ofKind, ← List.filterMap_eq_map, List.filterMap_filter]
  apply List.filterMap_congr
  intro row _
  show (evOf ids row).opening = _
  unfold evOf
  by_cases hstart : IsStart ids row
  · have hin : row.stream ∈ ids ∧ row.event.kind = "run_started" := hstart
    simp only [hstart, if_true, Ev.opening, hin, and_self, decide_true]
    rfl
  · have hout : ¬ (row.stream ∈ ids ∧ row.event.kind = "run_started") := hstart
    simp only [hstart, if_false, decide_false, hout, Bool.false_eq_true]
    split <;> rfl

theorem closed_events {k : String} :
    Closed (events ids db) k ↔ ∃ e ∈ ofKind ids db "run_ended", runName e = k := by
  rw [Leases.closed_iff]
  constructor
  · rintro ⟨i, h⟩
    obtain ⟨row, hrow, hev⟩ := List.mem_map.mp h
    unfold evOf at hev
    split at hev
    · cases hev
    · split at hev
      · next hend =>
          obtain ⟨-, rfl⟩ := Ev.closed.inj hev
          exact ⟨row, mem_ofKind.mpr ⟨hrow, hend⟩, rfl⟩
      · cases hev
  · rintro ⟨e, he, rfl⟩
    obtain ⟨hdb, hin, hkind⟩ := mem_ofKind.mp he
    refine ⟨jobName e, List.mem_map.mpr ⟨e, hdb, ?_⟩⟩
    have hstart : ¬ IsStart ids e := by
      rintro ⟨-, hkind'⟩
      rw [hkind] at hkind'
      exact absurd hkind' (by decide)
    have hend : IsEnd ids e := ⟨hin, hkind⟩
    rw [evOf, if_neg hstart, if_pos hend]

section Named

variable (hnamed : ∀ row ∈ db, Named row)

include hnamed

theorem endedRun_iff {run : String} : EndedRun ids db run ↔ Closed (events ids db) run := by
  rw [closed_events]
  apply exists_congr
  intro e
  apply and_congr_right
  intro he
  obtain ⟨hdb, -, hkind⟩ := mem_ofKind.mp he
  have hrun := (hnamed e hdb).run
  rw [hkind] at hrun
  rw [field_eq_some (hrun (by decide)), Option.some_inj]
  rfl

/-- The leases that are live are the starts without an end. -/
theorem live_events : live (events ids db) =
    (unended ids db "run_started").map fun s => (jobName s, runName s) := by
  rw [live, opens_events, List.filter_map, unended]
  congr 1
  apply List.filter_congr
  intro s hs
  obtain ⟨hdb, -, hkind⟩ := mem_ofKind.mp hs
  have hrun := (hnamed s hdb).run
  rw [hkind] at hrun
  have hfield := field_eq_some (hrun (by decide))
  rw [Function.comp_apply, decide_eq_decide, not_ended_iff]
  constructor
  · intro hnot id hid hended
    rw [hfield] at hid
    obtain rfl := Option.some.inj hid
    exact hnot ((endedRun_iff hnamed).mp hended)
  · intro hall hclosed
    exact hall (runName s) hfield ((endedRun_iff hnamed).mpr hclosed)

end Named

/-! ### A record that lands -/

theorem evOf_other (row : Row) (kind : String) (hkind : row.event.kind = kind)
    (hstart : kind ≠ "run_started") (hend : kind ≠ "run_ended") : evOf ids row = .other := by
  rw [evOf, if_neg, if_neg]
  · exact fun h => hend (hkind.symm.trans h.2)
  · exact fun h => hstart (hkind.symm.trans h.2)

section Landed

variable (own : String) (ms : ℕ) (e : Entry)

/-- The row an append lands. -/
def rowOf (db : Database) : Row := ⟨own, Knl.landed (fun _ => ms) db own e.toObj⟩

theorem appendRow_eq : appendRow (fun _ => ms) db own e.toObj = db ++ [rowOf own ms e db] := rfl

@[simp] theorem rowOf_ms : (rowOf own ms e db).event.epochMs = ms := rfl

@[simp] theorem rowOf_kind : (rowOf own ms e db).event.kind = e.kind := by
  rw [rowOf, Knl.landed_kind]
  rfl

@[simp] theorem rowOf_data : (rowOf own ms e db).event.data = e.data := by
  rw [rowOf, Knl.landed_data]
  rfl

theorem rowOf_named : Named (rowOf own ms e db) := by
  have h := @recorded_named (fun _ => ms) [(own, e)] _ (List.mem_singleton_self _)
  refine ⟨?_, ?_⟩
  · intro hkind
    exact h.job hkind
  · intro hkind
    exact h.run hkind

/-- What lands is the lease's event that was handed over. -/
theorem evOf_rowOf (hown : own ∈ ids) : evOf ids (rowOf own ms e db) = entryEv e := by
  have hkind := @rowOf_kind db own ms e
  cases e with
  | runStarted job run more => exact if_pos ⟨hown, hkind⟩
  | runEnded job run outcome more =>
      have hstart : ¬ IsStart ids (rowOf own ms (.runEnded job run outcome more) db) := by
        rintro ⟨-, hkind'⟩
        have hne : "run_ended" ≠ "run_started" := by decide
        exact hne (hkind.symm.trans hkind')
      have hend : IsEnd ids (rowOf own ms (.runEnded job run outcome more) db) := ⟨hown, hkind⟩
      rw [evOf, if_neg hstart, if_pos hend]
      rfl
  | runRequested job asker => exact evOf_other _ "run_requested" hkind (by decide) (by decide)
  | runStopRequested run asker =>
      exact evOf_other _ "run_stop_requested" hkind (by decide) (by decide)
  | runSkipped job reason more => exact evOf_other _ "run_skipped" hkind (by decide) (by decide)
  | other kind data hother =>
      refine evOf_other _ kind hkind ?_ ?_
      · rintro rfl
        exact hother (by decide)
      · rintro rfl
        exact hother (by decide)

theorem events_append (hown : own ∈ ids) :
    events ids (appendRow (fun _ => ms) db own e.toObj) = events ids db ++ [entryEv e] := by
  rw [appendRow_eq, events, List.map_append, List.map_singleton, evOf_rowOf own ms e hown]
  rfl

end Landed

/-! ### What has still to land -/

/-- The leases granted, of which the start has still to land. -/
def pend (starts : List Entry) : List (String × String) :=
  starts.filterMap fun e => (entryEv e).opening

/-- The job of a start that answers no request. -/
def unasked : Entry → Option String
  | .runStarted job _ more => if (more.get? "requested").isNone then some job else none
  | _ => none

/-- The record, the time, the starts and the ends that may still land, and the
handles. -/
structure View where
  db : Database
  time : ℚ
  starts : List Entry
  ends : List (String × String)
  runs : List String

def Stage.live : Stage → Bool
  | .running | .ending _ _ => true
  | _ => false

def Task.start (t : Task) : Option Entry :=
  match t.stage with
  | .starting => some t.startEntry
  | _ => none

def startsIn (entries : List Entry) : List Entry :=
  entries.filter fun e => (entryEv e).opening.isSome

def Task.lease (t : Task) : Option (String × String) :=
  if t.stage.live then some (t.job, t.run) else none

def endings (entries : List Entry) : List (String × String) :=
  entries.filterMap fun e => (entryEv e).closing

def World.view (w : World) : View where
  db := w.db
  time := w.time
  starts := w.tasks.filterMap Task.start ++ startsIn w.flight
  ends := w.tasks.filterMap Task.lease ++ endings w.flight ++ endings w.phase.inFlight.toList
  runs := w.tasks.map Task.run

section

variable (cfg : Config)

/-- After the end `e` a start of the job at `ms` is not too soon. -/
def Due (job : String) (e : Row) (ms : ℕ) : Prop :=
  ∀ d ∈ cfg.jobs, d.name = job → ∀ every, d.every = some every →
    (e.event.epochMs : ℚ) + every * 1000 ≤ ms

def RestedAt (db : Database) (job : String) (ms : ℕ) : Prop :=
  ∀ e ∈ db, IsEnd cfg.ids e → jobName e = job → Due cfg job e ms

/-- A start that answers no request is not too soon after an end of its job. -/
def Paced (e s : Row) : Prop :=
  IsEnd cfg.ids e → IsStart cfg.ids s → Knl.dataField s.event "requested" = none →
    jobName e = jobName s → Due cfg (jobName s) e s.event.epochMs

/-- A run id that was made. -/
def Used (v : View) (run : String) : Prop :=
  run ∈ v.runs ∨ run ∈ (pend v.starts ++ opens (events cfg.ids v.db)).map Prod.snd ∨
    Closed (events cfg.ids v.db) run

/-- What holds of the record and of what has still to land. -/
structure Core (v : View) : Prop where
  named : ∀ row ∈ v.db, Named row
  times : v.db.Pairwise fun a b => a.event.epochMs ≤ b.event.epochMs
  past : ∀ row ∈ v.db, row.event.epochMs ≤ msOf v.time
  leases : Leases.Inv cfg.maxRuns ⟨events cfg.ids v.db, pend v.starts, v.ends⟩
  runs : v.runs.Nodup
  paced : v.db.Pairwise (Paced cfg)
  rested : ∀ e ∈ v.starts, ∀ job, unasked e = some job → RestedAt cfg v.db job (msOf v.time)

/-- What a later view has of an earlier one. -/
structure Later (v v' : View) : Prop where
  time : v.time ≤ v'.time
  granted : ∀ p ∈ pend v'.starts, p ∈ pend v.starts
  opened : ∀ o ∈ opens (events cfg.ids v.db), o ∈ opens (events cfg.ids v'.db)
  live : pend v.starts = [] →
    (live (events cfg.ids v'.db)).Sublist (live (events cfg.ids v.db))
  ends : ∀ e ∈ v'.db, IsEnd cfg.ids e →
    e ∈ v.db ∨ jobName e ∈ (Leases.live (events cfg.ids v.db)).map Prod.fst
  used : ∀ run, Used cfg v' run → Used cfg v run
  handles : v.runs = [] → v'.runs = []

end

variable {cfg : Config} {v v' : View}

theorem msOf_le {s t : ℚ} (h : s ≤ t) : msOf s ≤ msOf t :=
  Int.toNat_le_toNat (Int.floor_mono (mul_le_mul_of_nonneg_right h (by norm_num)))

theorem RestedAt.mono {job : String} {ms ms' : ℕ} (h : RestedAt cfg db job ms) (hle : ms ≤ ms') :
    RestedAt cfg db job ms' := by
  intro e he hend hjob d hd hname every hevery
  exact (h e he hend hjob d hd hname every hevery).trans (Nat.cast_le.mpr hle)

theorem pend_subperm {starts starts' : List Entry} (h : starts'.Subperm starts) :
    (pend starts').Subperm (pend starts) := by
  obtain ⟨l, hperm, hsub⟩ := h
  exact ⟨_, hperm.filterMap _, hsub.filterMap _⟩

/-- Nothing lands. -/
theorem Core.still (h : Core cfg v) {time : ℚ} {starts : List Entry} {ends : List (String × String)}
    {runs : List String} (htime : v.time ≤ time) (hstarts : starts.Subperm v.starts)
    (hends : ends.Subperm v.ends) (hruns : runs.Sublist v.runs) :
    Core cfg ⟨v.db, time, starts, ends, runs⟩ ∧ Later cfg v ⟨v.db, time, starts, ends, runs⟩ := by
  constructor
  · exact ⟨h.named, h.times, fun row hrow => (h.past row hrow).trans (msOf_le htime),
      h.leases.shrink (pend_subperm hstarts) hends, h.runs.sublist hruns, h.paced,
      fun e he job hjob => (h.rested e (hstarts.subset he) job hjob).mono (msOf_le htime)⟩
  · refine ⟨htime, fun p hp => (pend_subperm hstarts).subset hp, fun _ ho => ho,
      fun _ => .refl _, fun e he _ => .inl he, ?_,
      fun hnil => List.sublist_nil.mp (hnil ▸ hruns)⟩
    rintro run (hrun | hrun | hrun)
    · exact .inl (hruns.subset hrun)
    · refine .inr (.inl ?_)
      have hsub := (List.subperm_append_right (opens (events cfg.ids v.db))).mpr
        (pend_subperm hstarts)
      exact List.map_subset _ hsub.subset hrun
    · exact .inr (.inr hrun)

/-- What any record that lands keeps. -/
theorem Core.landed (h : Core cfg v) (e : Entry) {db' : Database}
    (hdb : db' = v.db ++ [rowOf cfg.own (msOf v.time) e v.db]) :
    (∀ row ∈ db', Named row) ∧ (db'.Pairwise fun a b => a.event.epochMs ≤ b.event.epochMs) ∧
      ∀ row ∈ db', row.event.epochMs ≤ msOf v.time := by
  subst hdb
  refine ⟨?_, ?_, ?_⟩
  · intro row hrow
    rcases List.mem_append.mp hrow with hrow | hrow
    · exact h.named row hrow
    · rw [List.mem_singleton.mp hrow]
      exact rowOf_named _ _ _
  · refine List.pairwise_append.mpr ⟨h.times, List.pairwise_singleton _ _, ?_⟩
    intro a ha b hb
    rw [List.mem_singleton.mp hb, rowOf_ms]
    exact h.past a ha
  · intro row hrow
    rcases List.mem_append.mp hrow with hrow | hrow
    · exact h.past row hrow
    · rw [List.mem_singleton.mp hrow, rowOf_ms]

theorem entryEv_of_start {e : Entry} {ms : ℕ} (hown : cfg.own ∈ cfg.ids)
    (h : IsStart cfg.ids (rowOf cfg.own ms e db)) :
    entryEv e = .opened (jobName (rowOf cfg.own ms e db)) (runName (rowOf cfg.own ms e db)) := by
  rw [← @evOf_rowOf cfg.ids db cfg.own ms e hown]
  exact if_pos h

theorem entryEv_of_end {e : Entry} {ms : ℕ} (hown : cfg.own ∈ cfg.ids)
    (h : IsEnd cfg.ids (rowOf cfg.own ms e db)) :
    entryEv e = .closed (jobName (rowOf cfg.own ms e db)) (runName (rowOf cfg.own ms e db)) := by
  have hstart : ¬ IsStart cfg.ids (rowOf cfg.own ms e db) := by
    intro hstart
    have hne : "run_started" ≠ "run_ended" := by decide
    exact hne (hstart.2.symm.trans h.2)
  rw [← @evOf_rowOf cfg.ids db cfg.own ms e hown, evOf, if_neg hstart, if_pos h]

theorem mem_pend_of_unasked {starts : List Entry} {e : Entry} {job : String} (he : e ∈ starts)
    (h : unasked e = some job) : ∃ run, (job, run) ∈ pend starts := by
  cases e with
  | runStarted j run more =>
      have hjob : j = job := by
        simp only [unasked] at h
        split_ifs at h
        exact Option.some.inj h
      subst hjob
      exact ⟨run, List.mem_filterMap.mpr ⟨_, he, rfl⟩⟩
  | _ => cases h

/-- A record that is neither a start nor an end. -/
theorem Core.noted (h : Core cfg v) (hown : cfg.own ∈ cfg.ids) {e : Entry}
    (hev : entryEv e = .other) :
    Core cfg { v with db := appendRow (fun _ => msOf v.time) v.db cfg.own e.toObj } ∧
      Later cfg v { v with db := appendRow (fun _ => msOf v.time) v.db cfg.own e.toObj } := by
  have hlog := @events_append cfg.ids v.db cfg.own (msOf v.time) e hown
  rw [hev] at hlog
  obtain ⟨hnamed, htimes, hpast⟩ := h.landed e (@appendRow_eq v.db cfg.own (msOf v.time) e)
  have hend : ¬ IsEnd cfg.ids (rowOf cfg.own (msOf v.time) e v.db) := by
    intro hend
    rw [entryEv_of_end hown hend] at hev
    cases hev
  have hstart : ¬ IsStart cfg.ids (rowOf cfg.own (msOf v.time) e v.db) := by
    intro hstart
    rw [entryEv_of_start hown hstart] at hev
    cases hev
  have hends : ∀ a ∈ v.db ++ [rowOf cfg.own (msOf v.time) e v.db],
      IsEnd cfg.ids a → a ∈ v.db := by
    intro a ha haend
    rcases List.mem_append.mp ha with ha | ha
    · exact ha
    · rw [List.mem_singleton.mp ha] at haend
      exact absurd haend hend
  constructor
  · refine ⟨hnamed, htimes, hpast, ?_, h.runs, ?_, ?_⟩
    · show Leases.Inv _ ⟨events cfg.ids (appendRow _ _ _ _), _, _⟩
      rw [hlog]
      -- neither opens nor closes a lease
      exact h.leases.other
    · refine List.pairwise_append.mpr ⟨h.paced, List.pairwise_singleton _ _, ?_⟩
      intro a _ b hb _ hbstart
      rw [List.mem_singleton.mp hb] at hbstart
      exact absurd hbstart hstart
    · intro s hs job hjob a ha haend
      exact h.rested s hs job hjob a (hends a ha haend) haend
  · refine ⟨le_rfl, fun _ hp => hp, ?_, ?_, fun a ha haend => .inl (hends a ha haend), ?_, id⟩
    · intro o ho
      rw [hlog, Leases.opens_other]
      exact ho
    · intro _
      rw [hlog, Leases.live_other]
    · intro run hrun
      unfold Used at hrun
      rw [hlog, Leases.opens_other, Leases.closed_other] at hrun
      exact hrun

/-- A start lands. -/
theorem Core.opened {time : ℚ} {starts : List Entry} {ends : List (String × String)}
    {runs : List String} {job run : String} {more : Obj} (hown : cfg.own ∈ cfg.ids)
    (h : Core cfg ⟨db, time, .runStarted job run more :: starts, ends, runs⟩) :
    let db' := appendRow (fun _ => msOf time) db cfg.own (Entry.runStarted job run more).toObj
    Core cfg ⟨db', time, starts, (job, run) :: ends, runs⟩ ∧
      Later cfg ⟨db, time, .runStarted job run more :: starts, ends, runs⟩
        ⟨db', time, starts, (job, run) :: ends, runs⟩ := by
  have hlog := @events_append cfg.ids db cfg.own (msOf time) (.runStarted job run more) hown
  change _ = _ ++ [Ev.opened job run] at hlog
  obtain ⟨hnamed, htimes, hpast⟩ := h.landed _ (@appendRow_eq db cfg.own (msOf time) _)
  have hend : ¬ IsEnd cfg.ids (rowOf cfg.own (msOf time) (.runStarted job run more) db) := by
    intro hend
    have hev := entryEv_of_end hown hend
    cases hev
  have hends : ∀ a ∈ db ++ [rowOf cfg.own (msOf time) (.runStarted job run more) db],
      IsEnd cfg.ids a → a ∈ db := by
    intro a ha haend
    rcases List.mem_append.mp ha with ha | ha
    · exact ha
    · rw [List.mem_singleton.mp ha] at haend
      exact absurd haend hend
  constructor
  · refine ⟨hnamed, htimes, hpast, ?_, h.runs, ?_, ?_⟩
    · show Leases.Inv _ ⟨events cfg.ids (appendRow _ _ _ _), _, _⟩
      rw [hlog]
      exact h.leases.opened
    · refine List.pairwise_append.mpr ⟨h.paced, List.pairwise_singleton _ _, ?_⟩
      intro a ha b hb haend hbstart hasked hjob
      -- The start that lands answers no request, so its job has rested.
      have hrow : b = rowOf cfg.own (msOf time) (.runStarted job run more) db :=
        List.mem_singleton.mp hb
      rw [hrow] at hbstart hasked hjob ⊢
      obtain ⟨hname, -⟩ := Ev.opened.inj (entryEv_of_start hown hbstart)
      rw [← hname] at hjob ⊢
      have hnone : more.get? "requested" = none := by
        rw [Knl.dataField, rowOf_data] at hasked
        exact hasked
      have hunasked : unasked (.runStarted job run more) = some job := by
        rw [unasked, hnone]
        rfl
      exact h.rested _ List.mem_cons_self job hunasked a ha haend hjob
    · intro s hs j hj a ha haend
      exact h.rested s (List.mem_cons_of_mem _ hs) j hj a (hends a ha haend) haend
  · refine ⟨le_rfl, fun p hp => List.mem_cons_of_mem _ hp, ?_, ?_,
      fun a ha haend => .inl (hends a ha haend), ?_, id⟩
    · intro o ho
      rw [hlog, Leases.opens_opened]
      exact List.mem_append_left _ ho
    · intro hnil
      cases hnil
    · intro k hk
      unfold Used at hk ⊢
      rw [hlog, Leases.opens_opened, Leases.closed_opened] at hk
      rcases hk with hk | hk | hk
      · exact .inl hk
      · refine .inr (.inl ?_)
        show k ∈ (((job, run) :: pend starts) ++ opens (events cfg.ids db)).map Prod.snd
        simp only [List.map_append, List.mem_append, List.map_cons, List.mem_cons,
          List.map_nil, List.not_mem_nil, or_false] at hk ⊢
        tauto
      · exact .inr (.inr hk)

/-- An end lands. -/
theorem Core.closed {time : ℚ} {starts : List Entry} {ends : List (String × String)}
    {runs : List String} {job run outcome : String} {more : Obj} (hown : cfg.own ∈ cfg.ids)
    (h : Core cfg ⟨db, time, starts, (job, run) :: ends, runs⟩) :
    let db' := appendRow (fun _ => msOf time) db cfg.own
      (Entry.runEnded job run outcome more).toObj
    Core cfg ⟨db', time, starts, ends, runs⟩ ∧
      Later cfg ⟨db, time, starts, (job, run) :: ends, runs⟩ ⟨db', time, starts, ends, runs⟩ := by
  have hlog := @events_append cfg.ids db cfg.own (msOf time) (.runEnded job run outcome more) hown
  change _ = _ ++ [Ev.closed job run] at hlog
  obtain ⟨hnamed, htimes, hpast⟩ := h.landed _ (@appendRow_eq db cfg.own (msOf time) _)
  have hlive : (job, run) ∈ live (events cfg.ids db) := h.leases.held _ List.mem_cons_self
  have hstart : ¬ IsStart cfg.ids
      (rowOf cfg.own (msOf time) (.runEnded job run outcome more) db) := by
    intro hstart
    have hev := entryEv_of_start hown hstart
    cases hev
  have hends : ∀ a ∈ db ++ [rowOf cfg.own (msOf time) (.runEnded job run outcome more) db],
      IsEnd cfg.ids a → a ∈ db ∨ jobName a = job := by
    intro a ha haend
    rcases List.mem_append.mp ha with ha | ha
    · exact .inl ha
    · rw [List.mem_singleton.mp ha] at haend ⊢
      exact .inr (Ev.closed.inj (entryEv_of_end hown haend)).1.symm
  constructor
  · refine ⟨hnamed, htimes, hpast, ?_, h.runs, ?_, ?_⟩
    · show Leases.Inv _ ⟨events cfg.ids (appendRow _ _ _ _), _, _⟩
      rw [hlog]
      exact h.leases.closed
    · refine List.pairwise_append.mpr ⟨h.paced, List.pairwise_singleton _ _, ?_⟩
      intro a _ b hb _ hbstart
      rw [List.mem_singleton.mp hb] at hbstart
      exact absurd hbstart hstart
    · intro s hs j hj a ha haend hname
      rcases hends a ha haend with ha | hjob
      · exact h.rested s hs j hj a ha haend hname
      · -- The job whose run ends has a live run, and one to start has none.
        obtain ⟨k, hk⟩ := mem_pend_of_unasked hs hj
        have howners := h.leases.owners
        rw [List.map_append] at howners
        have hne := (List.nodup_append.mp howners).2.2 j (List.mem_map.mpr ⟨_, hk, rfl⟩) job
          (List.mem_map.mpr ⟨_, hlive, rfl⟩)
        exact absurd (hname.symm.trans hjob) hne
  · refine ⟨le_rfl, fun p hp => hp, ?_, ?_, ?_, ?_, id⟩
    · intro o ho
      rw [hlog, Leases.opens_closed]
      exact ho
    · intro _
      rw [hlog, Leases.live_closed]
      exact List.filter_sublist
    · intro a ha haend
      rcases hends a ha haend with ha | hjob
      · exact .inl ha
      · exact .inr (List.mem_map.mpr ⟨_, hlive, hjob.symm⟩)
    · intro k hk
      unfold Used at hk ⊢
      rw [hlog, Leases.opens_closed, Leases.closed_closed] at hk
      rcases hk with hk | hk | hk | rfl
      · exact .inl hk
      · exact .inr (.inl hk)
      · exact .inr (.inr hk)
      · refine .inr (.inl (List.mem_map.mpr ⟨(job, k), ?_, rfl⟩))
        exact List.mem_append_right _ (Leases.mem_live.mp hlive).1

/-- A run that is live may be ended by hand. -/
theorem Core.take {time : ℚ} {starts : List Entry} {ends : List (String × String)}
    {runs : List String} {job run : String} (h : Core cfg ⟨db, time, starts, ends, runs⟩)
    (hlive : (job, run) ∈ live (events cfg.ids db)) (hnew : run ∉ ends.map Prod.snd) :
    Core cfg ⟨db, time, starts, (job, run) :: ends, runs⟩ ∧
      Later cfg ⟨db, time, starts, ends, runs⟩ ⟨db, time, starts, (job, run) :: ends, runs⟩ :=
  ⟨⟨h.named, h.times, h.past, h.leases.take hlive hnew, h.runs, h.paced, h.rested⟩,
    ⟨le_rfl, fun _ hp => hp, fun _ ho => ho, fun _ => .refl _, fun _ he _ => .inl he,
      fun _ hk => hk, id⟩⟩

/-- The same record, and nothing more that may land. -/
structure Less (v v' : View) : Prop where
  db : v'.db = v.db
  time : v.time ≤ v'.time
  starts : v'.starts.Subperm v.starts
  ends : v'.ends.Subperm v.ends
  runs : v'.runs.Sublist v.runs

theorem Core.less (h : Core cfg v) (hless : Less v v') : Core cfg v' ∧ Later cfg v v' := by
  obtain ⟨db', time', starts', ends', runs'⟩ := v'
  obtain rfl : db' = v.db := hless.db
  exact h.still hless.time hless.starts hless.ends hless.runs

/-- A record lands, and besides it something may be forgotten, before and after. -/
theorem Core.through {v₁ v₂ : View} (h : Core cfg v) (hbefore : Less v v₁)
    (hmid : Core cfg v₁ → Core cfg v₂ ∧ Later cfg v₁ v₂) (hafter : Less v₂ v') :
    Core cfg v' ∧ Later cfg v v' := by
  obtain ⟨h₁, hl₁⟩ := h.less hbefore
  obtain ⟨h₂, hl₂⟩ := hmid h₁
  obtain ⟨h₃, hl₃⟩ := h₂.less hafter
  refine ⟨h₃, ⟨(hl₁.time.trans hl₂.time).trans hl₃.time,
    fun p hp => hl₁.granted p (hl₂.granted p (hl₃.granted p hp)),
    fun o ho => hl₃.opened o (hl₂.opened o (hl₁.opened o ho)), ?_, ?_,
    fun run hrun => hl₁.used run (hl₂.used run (hl₃.used run hrun)),
    fun hnil => hl₃.handles (hl₂.handles (hl₁.handles hnil))⟩⟩
  · intro hnil
    have hnil₁ : pend v₁.starts = [] := by
      apply List.eq_nil_iff_forall_not_mem.mpr
      intro p hp
      have hmem := hl₁.granted p hp
      rw [hnil] at hmem
      cases hmem
    rw [hafter.db, ← hbefore.db]
    exact hl₂.live hnil₁
  · intro e he hend
    rw [hafter.db] at he
    rw [← hbefore.db]
    exact hl₂.ends e he hend

end AgentBlock.Serve
