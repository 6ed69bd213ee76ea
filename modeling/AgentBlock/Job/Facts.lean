/-
AgentBlock/Job/Facts.lean

What the manager's record says, and what a read of it answers.

A request stands until a start or a skip of its job lands after it; a run is
live from its start to its end.  A read goes by the times of the rows, and keeps
its live runs by their jobs.  So it takes a request for answered by what landed
before it in its own millisecond (`NoTie`), and of two live runs of a job, or two
starts of a run, it keeps one (`OneEach`).  A statement that finds more rows than
a query answers makes the read raise (`Fits`).

Main results:

* `says_iff` — when a read answers what the record says;
* `reconcile_closes` — what reconciling leaves, where it does;
* `readsRecord_iff` — both, of every record there is.
-/
import AgentBlock.Job.Read
import AgentBlock.Lib.Answered
import AgentBlock.Lib.Except
import AgentBlock.Lib.Keyed
import Mathlib.Data.Finset.Card
import Mathlib.Order.Monotone.Basic

namespace AgentBlock.Job

open Knl (Database Row stringField appendRow appendRows)
open Answered (standing StandsByTime NoneBefore)

variable {ids : List String} {db : Database} {row : Row} {facts : Facts}

/-! ### What the record says -/

section Defs

variable (ids : List String) (db : Database)

def Asks (r : Row) : Prop := r.stream ∈ ids ∧ r.event.kind = "run_requested"

/-- A start or a skip of the job that is asked for. -/
def AnswersAsk (s r : Row) : Prop :=
  s.stream ∈ ids ∧ (s.event.kind = "run_started" ∨ s.event.kind = "run_skipped") ∧
    SameField "job" s r

instance : DecidablePred (Asks ids) := fun r => by
  unfold Asks
  infer_instance

instance : DecidableRel (AnswersAsk ids) := fun s r => by
  unfold AnswersAsk
  infer_instance

/-- The requests that no start or skip of their job landed after. -/
def pending : List Row := standing (Asks ids) (AnswersAsk ids) db

/-- The run has an end. -/
def EndedRun (id : String) : Prop :=
  ∃ e ∈ ofKind ids db "run_ended", stringField e.event "run_id" = some id

instance : DecidablePred (EndedRun ids db) := fun id => by
  unfold EndedRun
  infer_instance

/-- The runs that have a start and no end. -/
def liveRuns : Finset String :=
  ((ofKind ids db "run_started").filterMap fun s => stringField s.event "run_id").toFinset.filter
    fun id => ¬ EndedRun ids db id

/-- The requests to stop a run that has no end. -/
def standingStops : List Row :=
  (ofKind ids db "run_stop_requested").filter fun r =>
    ∀ id ∈ stringField r.event "run_id", ¬ EndedRun ids db id

/-- The last end of a job. -/
def lastEnd (job : String) : Option Row :=
  ((ofKind ids db "run_ended").filter fun e => stringField e.event "job" = some job).getLast?

/-- The facts are what the record says. -/
structure Says (facts : Facts) : Prop where
  requested : facts.requested.Perm ((pending ids db).map requestOf)
  live : ∀ id, (∃ r ∈ facts.live.entries, r.2.runId = some id) ↔ id ∈ liveRuns ids db
  live_of : ∀ r ∈ facts.live.entries, ∃ s ∈ ofKind ids db "run_started",
    stringField s.event "job" = some r.1 ∧ r.2 = liveOf s
  live_count : facts.liveCount = (liveRuns ids db).card
  stops : facts.stops.Perm ((standingStops ids db).map stopOf)
  ended : ∀ job, facts.ended.lookup job =
    (lastEnd ids db job).map fun e => (e.event.epochMs : ℚ) / 1000

/-- A record names the job and the run its kind does. -/
structure Named (row : Row) : Prop where
  job : row.event.kind ∈ ["run_requested", "run_started", "run_skipped", "run_ended"] →
    stringField row.event "job" ≠ none
  run : row.event.kind ∈ ["run_started", "run_ended", "run_stop_requested"] →
    stringField row.event "run_id" ≠ none

/-- No request that stands has an answer of its job before it in its own
millisecond. -/
def NoTie : Prop :=
  ∀ before r after, db = before ++ r :: after →
    NoneBefore (Asks ids) (AnswersAsk ids) (fun row => row.event.epochMs) before r after

/-- The starts of live runs are of different jobs and different runs. -/
def OneEach : Prop :=
  (unended ids db "run_started").Pairwise fun a b =>
    stringField a.event "job" ≠ stringField b.event "job" ∧
      stringField a.event "run_id" ≠ stringField b.event "run_id"

instance : Decidable (OneEach ids db) := by
  unfold OneEach
  infer_instance

/-- Each statement finds at most the rows that a query answers. -/
structure Fits : Prop where
  ended : (endedRows ids db).length ≤ 1000
  live : (liveRows ids db).length ≤ 1000
  requested : (requestedRows ids db).length ≤ 1000
  stops : (stopRows ids db).length ≤ 1000

end Defs

/-! ### The read -/

theorem mem_ofKind {kind : String} :
    row ∈ ofKind ids db kind ↔ row ∈ db ∧ row.stream ∈ ids ∧ row.event.kind = kind := by
  rw [ofKind, List.mem_filter, decide_eq_true_iff]

theorem sessionsOf_span (own : String) (hids : ids ≠ []) :
    Knl.Query.sessionsOf (span ⟨some ids⟩) own = .ok ids := by
  cases ids with
  | nil => exact absurd rfl hids
  | cons id ids => rfl

theorem rowsOf_ok {α : Type} {rows : List α} (who : String) (opts : ReadOpts)
    (h : rows.length ≤ 1000) : rowsOf rows who opts = .ok rows :=
  if_neg (Nat.not_lt.mpr h)

/-- The facts of a read that nothing cuts. -/
def factsOf (ids : List String) (db : Database) : Facts where
  ended := (endedRows ids db).foldl keepEnded ∅
  live := (liveRows ids db).foldl keepLive ∅
  liveCount := ((liveRows ids db).filter fun row => (stringField row.event "job").isSome).length
  requested := (requestedRows ids db).map requestOf
  stops := (stopRows ids db).map stopOf

theorem read_ok (own : String) (hids : ids ≠ []) (hfits : Fits ids db) :
    read own ⟨some ids⟩ db = .ok (factsOf ids db) := by
  have hsessions := sessionsOf_span own hids
  simp only [read, hsessions, Except.mapError, bind, Except.bind, rowsOf_ok _ _ hfits.ended,
    rowsOf_ok _ _ hfits.live, rowsOf_ok _ _ hfits.requested, rowsOf_ok _ _ hfits.stops]
  rfl

theorem rowsOf_eq_ok {α : Type} {rows answered : List α} {who : String}
    (h : rowsOf rows who ⟨some ids⟩ = .ok answered) : rows.length ≤ 1000 := by
  unfold rowsOf at h
  split at h
  · cases h
  · exact Nat.not_lt.mp ‹_›

/-- A read that answers was cut nowhere. -/
theorem fits_of_read {own : String} (hids : ids ≠ [])
    (h : read own ⟨some ids⟩ db = .ok facts) : Fits ids db := by
  have hsessions := sessionsOf_span own hids
  unfold read at h
  rw [hsessions] at h
  change (rowsOf (endedRows ids db) "job.read" ⟨some ids⟩ >>= _) = _ at h
  obtain ⟨ended, hended, h⟩ := Except.bind_eq_ok.mp h
  obtain ⟨live, hlive, h⟩ := Except.bind_eq_ok.mp h
  obtain ⟨requested, hrequested, h⟩ := Except.bind_eq_ok.mp h
  obtain ⟨stops, hstops, -⟩ := Except.bind_eq_ok.mp h
  exact ⟨rowsOf_eq_ok hended, rowsOf_eq_ok hlive, rowsOf_eq_ok hrequested, rowsOf_eq_ok hstops⟩

/-! ### The requests -/

theorem requestedRows_perm : (requestedRows ids db).Perm
    (Answered.standingByTime (Asks ids) (AnswersAsk ids) (fun row => row.event.epochMs) db) := by
  refine (List.perm_insertionSort _ _).trans ?_
  rw [Answered.standingByTime, ofKind, List.filter_filter]
  apply List.Perm.of_eq
  apply List.filter_congr
  intro r hr
  rw [← Bool.decide_and, decide_eq_decide]
  unfold StandsByTime Asks AnswersAsk
  constructor
  · rintro ⟨hno, hkind⟩
    refine ⟨hkind, ?_⟩
    rintro ⟨s, hs, ⟨hin, hanswer, hsame⟩, hle⟩
    exact hno ⟨s, hs, hin, hanswer, hle, hsame⟩
  · rintro ⟨hkind, hno⟩
    refine ⟨?_, hkind⟩
    rintro ⟨s, hs, hin, hanswer, hle, hsame⟩
    exact hno ⟨s, hs, ⟨hin, hanswer, hsame⟩, hle⟩

/-- The requests read are those that stand, exactly where none is tied. -/
theorem requested_iff (htime : db.Pairwise fun a b => a.event.epochMs ≤ b.event.epochMs) :
    ((requestedRows ids db).map requestOf).Perm ((pending ids db).map requestOf) ↔
      NoTie ids db := by
  have hself : ∀ r, Asks ids r → ¬ AnswersAsk ids r r := by
    rintro r ⟨-, hkind⟩ ⟨-, hanswer, -⟩
    rw [hkind] at hanswer
    revert hanswer
    decide
  have hsub := Answered.standingByTime_sublist hself htime
  refine Iff.trans ?_ (Answered.standingByTime_eq_iff hself htime)
  constructor
  · intro hperm
    have hlen := hperm.length_eq
    rw [List.length_map, List.length_map, requestedRows_perm.length_eq] at hlen
    exact hsub.eq_of_length hlen
  · intro heq
    exact (requestedRows_perm.trans (.of_eq heq)).map requestOf


/-! ### The runs -/

def jobName (row : Row) : String := (stringField row.event "job").getD ""

def runName (row : Row) : String := (stringField row.event "run_id").getD ""

theorem field_eq_some {name : String} (h : stringField row.event name ≠ none) :
    stringField row.event name = some ((stringField row.event name).getD "") := by
  cases hfield : stringField row.event name with
  | none => exact absurd hfield h
  | some value => rfl

theorem not_ended_iff : (¬ ∃ e ∈ ofKind ids db "run_ended", SameField "run_id" e row) ↔
    ∀ id ∈ stringField row.event "run_id", ¬ EndedRun ids db id := by
  constructor
  · rintro hno id hid ⟨e, he, hrun⟩
    refine hno ⟨e, he, ?_, ?_⟩
    · rw [hrun]
      exact Option.some_ne_none id
    · exact hrun.trans hid.symm
  · rintro hno ⟨e, he, hsome, hsame⟩
    obtain ⟨id, hid⟩ := Option.ne_none_iff_exists'.mp hsome
    exact hno id (hsame.symm.trans hid) ⟨e, he, hid⟩

theorem mem_unended {kind : String} : row ∈ unended ids db kind ↔
    row ∈ ofKind ids db kind ∧ ∀ id ∈ stringField row.event "run_id", ¬ EndedRun ids db id := by
  rw [unended, List.mem_filter, decide_eq_true_iff, not_ended_iff]

theorem stopRows_perm : (stopRows ids db).Perm (standingStops ids db) := by
  refine (List.perm_insertionSort _ _).trans (List.Perm.of_eq ?_)
  apply List.filter_congr
  intro r hr
  rw [decide_eq_decide]
  exact not_ended_iff

theorem mem_liveRuns {id : String} : id ∈ liveRuns ids db ↔
    ∃ s ∈ unended ids db "run_started", stringField s.event "run_id" = some id := by
  rw [liveRuns, Finset.mem_filter, List.mem_toFinset, List.mem_filterMap]
  constructor
  · rintro ⟨⟨s, hs, hrun⟩, hlive⟩
    refine ⟨s, mem_unended.mpr ⟨hs, fun id' hid => ?_⟩, hrun⟩
    obtain rfl := Option.some.inj (hid.symm.trans hrun)
    exact hlive
  · rintro ⟨s, hs, hrun⟩
    obtain ⟨hstarted, hlive⟩ := mem_unended.mp hs
    exact ⟨⟨s, hstarted, hrun⟩, hlive id hrun⟩

section Live

variable (hnamed : ∀ row ∈ db, Named row)

include hnamed

theorem named_of_live {s : Row} (hs : s ∈ unended ids db "run_started") :
    stringField s.event "job" = some (jobName s) ∧
      stringField s.event "run_id" = some (runName s) := by
  obtain ⟨hdb, -, hkind⟩ := mem_ofKind.mp (mem_unended.mp hs).1
  obtain ⟨hjob, hrun⟩ := hnamed s hdb
  rw [hkind] at hjob hrun
  exact ⟨field_eq_some (hjob (by decide)), field_eq_some (hrun (by decide))⟩

theorem liveRuns_eq : liveRuns ids db = ((liveRows ids db).map runName).toFinset := by
  ext id
  rw [mem_liveRuns, List.mem_toFinset, List.mem_map]
  constructor
  · rintro ⟨s, hs, hrun⟩
    refine ⟨s, (List.mem_insertionSort _).mpr hs, ?_⟩
    exact Option.some.inj ((named_of_live hnamed hs).2.symm.trans hrun)
  · rintro ⟨s, hs, rfl⟩
    have hs := (List.mem_insertionSort _).mp hs
    exact ⟨s, hs, (named_of_live hnamed hs).2⟩

theorem live_eq : (factsOf ids db).live = Keyed.keyed jobName liveOf (liveRows ids db) := by
  apply List.foldl_ext
  intro t s hs
  rw [keepLive, (named_of_live hnamed ((List.mem_insertionSort _).mp hs)).1]

theorem liveCount_eq : (factsOf ids db).liveCount = (liveRows ids db).length := by
  show ((liveRows ids db).filter _).length = _
  rw [List.filter_eq_self.mpr]
  intro s hs
  rw [(named_of_live hnamed ((List.mem_insertionSort _).mp hs)).1]
  rfl

theorem oneEach_iff : OneEach ids db ↔
    ((liveRows ids db).map jobName).Nodup ∧ ((liveRows ids db).map runName).Nodup := by
  have hnames : OneEach ids db ↔ (unended ids db "run_started").Pairwise
      fun a b => jobName a ≠ jobName b ∧ runName a ≠ runName b := by
    apply List.Pairwise.iff_of_mem
    intro a b ha hb
    obtain ⟨haj, har⟩ := named_of_live hnamed ha
    obtain ⟨hbj, hbr⟩ := named_of_live hnamed hb
    rw [haj, hbj, har, hbr, Ne, Ne, Option.some_inj, Option.some_inj]
  have hsorted : (liveRows ids db).Pairwise
      (fun a b => jobName a ≠ jobName b ∧ runName a ≠ runName b) ↔
        (unended ids db "run_started").Pairwise
          fun a b => jobName a ≠ jobName b ∧ runName a ≠ runName b :=
    (List.perm_insertionSort timeLE _).pairwise_iff fun h => ⟨h.1.symm, h.2.symm⟩
  rw [hnames, ← hsorted, List.pairwise_and_iff]
  unfold List.Nodup
  rw [List.pairwise_map, List.pairwise_map]

/-- The live runs are read exactly where their starts are one each. -/
theorem live_iff :
    ((∀ id, (∃ r ∈ (factsOf ids db).live.entries, r.2.runId = some id) ↔ id ∈ liveRuns ids db) ∧
      (factsOf ids db).liveCount = (liveRuns ids db).card) ↔ OneEach ids db := by
  rw [oneEach_iff hnamed, live_eq hnamed, liveCount_eq hnamed, liveRuns_eq hnamed]
  constructor
  · rintro ⟨hcovers, hcount⟩
    -- as many runs as starts, and an entry for each
    have hruns : ((liveRows ids db).map runName).Nodup := by
      rw [List.card_toFinset, ← List.length_map runName] at hcount
      rw [← (List.dedup_sublist _).eq_of_length hcount.symm]
      exact List.nodup_dedup _
    refine ⟨(Keyed.length_keyed_eq_iff liveOf).mp ?_, hruns⟩
    have hsub : ((liveRows ids db).map runName).toFinset ⊆
        ((Keyed.keyed jobName liveOf (liveRows ids db)).entries.map
          fun r => r.2.runId.getD "").toFinset := by
      intro id hid
      obtain ⟨r, hr, hrun⟩ := (hcovers id).mpr hid
      rw [List.mem_toFinset, List.mem_map]
      exact ⟨r, hr, by rw [hrun]; rfl⟩
    have hle := (Finset.card_le_card hsub).trans (List.toFinset_card_le _)
    rw [← hcount, List.length_map] at hle
    exact hle
  · rintro ⟨hjobs, hruns⟩
    have hentries := Keyed.entries_keyed_perm liveOf hjobs
    refine ⟨fun id => ?_, ?_⟩
    · rw [List.mem_toFinset, List.mem_map]
      constructor
      · rintro ⟨r, hr, hrun⟩
        obtain ⟨s, hs, rfl⟩ := Keyed.exists_of_mem_entries hr
        refine ⟨s, hs, ?_⟩
        have hname := (named_of_live hnamed ((List.mem_insertionSort _).mp hs)).2
        exact Option.some.inj (hname.symm.trans hrun)
      · rintro ⟨s, hs, rfl⟩
        refine ⟨⟨jobName s, liveOf s⟩, hentries.mem_iff.mpr (List.mem_map_of_mem hs), ?_⟩
        exact (named_of_live hnamed ((List.mem_insertionSort _).mp hs)).2
    · rw [List.toFinset_card_of_nodup hruns, List.length_map]

theorem live_of : ∀ r ∈ (factsOf ids db).live.entries, ∃ s ∈ ofKind ids db "run_started",
    stringField s.event "job" = some r.1 ∧ r.2 = liveOf s := by
  intro r hr
  rw [live_eq hnamed] at hr
  obtain ⟨s, hs, rfl⟩ := Keyed.exists_of_mem_entries hr
  have hs := (List.mem_insertionSort _).mp hs
  exact ⟨s, (mem_unended.mp hs).1, (named_of_live hnamed hs).1, rfl⟩

end Live

/-! ### The ends -/

theorem foldl_max_le {ns : List ℕ} {n m : ℕ} (hn : n ≤ m) (hns : ∀ k ∈ ns, k ≤ m) :
    ns.foldl max n ≤ m := by
  induction ns generalizing n with
  | nil => exact hn
  | cons k ns ih =>
      have hk := hns k List.mem_cons_self
      exact ih (Nat.max_le.mpr ⟨hn, hk⟩) fun x hx => hns x (List.mem_cons_of_mem _ hx)

/-- The ends of a job. -/
def endsOf (ids : List String) (db : Database) (job : Option String) : List Row :=
  (ofKind ids db "run_ended").filter fun e => stringField e.event "job" = job

/-- The time of the last end is the largest, where times do not go back. -/
theorem latest_eq (htime : db.Pairwise fun a b => a.event.epochMs ≤ b.event.epochMs)
    {job : Option String} {e : Row} (hlast : (endsOf ids db job).getLast? = some e) :
    ((endsOf ids db job).map fun e => e.event.epochMs).foldl max 0 = e.event.epochMs := by
  have hsorted : (endsOf ids db job).Pairwise fun a b => a.event.epochMs ≤ b.event.epochMs :=
    htime.sublist (List.filter_sublist.trans List.filter_sublist)
  obtain ⟨init, hinit⟩ := List.getLast?_eq_some_iff.mp hlast
  rw [hinit] at hsorted ⊢
  rw [List.map_append, List.foldl_append]
  apply Nat.max_eq_right
  apply foldl_max_le (Nat.zero_le _)
  intro n hn
  obtain ⟨a, ha, rfl⟩ := List.mem_map.mp hn
  exact (List.pairwise_append.mp hsorted).2.2 a ha e (List.mem_singleton_self e)

theorem mem_endedRows {r : Option String × ℕ} : r ∈ endedRows ids db ↔
    endsOf ids db r.1 ≠ [] ∧
      r.2 = ((endsOf ids db r.1).map fun e => e.event.epochMs).foldl max 0 := by
  rw [endedRows, List.mem_map]
  constructor
  · rintro ⟨job, hjob, rfl⟩
    rw [List.mem_dedup, List.mem_map] at hjob
    obtain ⟨e, he, hfield⟩ := hjob
    refine ⟨List.ne_nil_of_mem (List.mem_filter.mpr ⟨he, decide_eq_true hfield⟩), rfl⟩
  · rintro ⟨hne, hms⟩
    obtain ⟨e, he⟩ := List.exists_mem_of_ne_nil _ hne
    obtain ⟨he, hfield⟩ := List.mem_filter.mp he
    refine ⟨r.1, ?_, Prod.ext rfl hms.symm⟩
    rw [List.mem_dedup, List.mem_map]
    exact ⟨e, he, of_decide_eq_true hfield⟩

/-- The last end of each job is read. -/
theorem ended_eq (hnamed : ∀ row ∈ db, Named row)
    (htime : db.Pairwise fun a b => a.event.epochMs ≤ b.event.epochMs) (job : String) :
    (factsOf ids db).ended.lookup job =
      (lastEnd ids db job).map fun e => (e.event.epochMs : ℚ) / 1000 := by
  have hsome : ∀ r ∈ endedRows ids db, r.1 = some (r.1.getD "") := by
    intro r hr
    obtain ⟨e, he⟩ := List.exists_mem_of_ne_nil _ (mem_endedRows.mp hr).1
    obtain ⟨he, hfield⟩ := List.mem_filter.mp he
    obtain ⟨hdb, -, hkind⟩ := mem_ofKind.mp he
    have hjob := (hnamed e hdb).job
    rw [hkind, of_decide_eq_true hfield] at hjob
    obtain ⟨name, hname⟩ := Option.ne_none_iff_exists'.mp (hjob (by decide))
    rw [hname]
    rfl
  have hkeyed : (factsOf ids db).ended =
      Keyed.keyed (fun r => r.1.getD "") (fun r => (r.2 : ℚ) / 1000) (endedRows ids db) := by
    apply List.foldl_ext
    intro t r hr
    rw [keepEnded, hsome r hr]
  -- one row a job, so the order in which they are kept does not matter
  have hnodup : ((endedRows ids db).map fun r => r.1.getD "").Nodup := by
    have hjobs : ((endedRows ids db).map Prod.fst).Nodup := by
      rw [endedRows, List.map_map]
      show (List.map id _).Nodup
      rw [List.map_id]
      exact List.nodup_dedup _
    rw [List.Nodup, List.pairwise_map] at hjobs ⊢
    refine hjobs.imp_of_mem fun ha hb hne heq => hne ?_
    rw [hsome _ ha, hsome _ hb, heq]
  rw [hkeyed]
  cases hlast : lastEnd ids db job with
  | none =>
      rw [Option.map_none, AList.lookup_eq_none, Keyed.mem_keyed, List.mem_map]
      rintro ⟨r, hr, rfl⟩
      apply (mem_endedRows.mp hr).1
      rw [hsome r hr]
      exact List.getLast?_eq_none_iff.mp hlast
  | some e =>
      have hmem : (some job, e.event.epochMs) ∈ endedRows ids db := by
        refine mem_endedRows.mpr ⟨fun hnil => ?_, (latest_eq htime hlast).symm⟩
        change (endsOf ids db (some job)).getLast? = some e at hlast
        rw [hnil] at hlast
        cases hlast
      apply AList.mem_lookup_iff.mpr
      exact (Keyed.entries_keyed_perm _ hnodup).mem_iff.mpr (List.mem_map_of_mem hmem)

/-! ### What a read answers -/

/-- **A read answers what the record says** exactly where no request is tied and
the live runs are one each. -/
theorem says_iff (hnamed : ∀ row ∈ db, Named row)
    (htime : db.Pairwise fun a b => a.event.epochMs ≤ b.event.epochMs) :
    Says ids db (factsOf ids db) ↔ NoTie ids db ∧ OneEach ids db := by
  constructor
  · intro h
    exact ⟨(requested_iff htime).mp h.requested, (live_iff hnamed).mp ⟨h.live, h.live_count⟩⟩
  · rintro ⟨htie, hone⟩
    obtain ⟨hlive, hcount⟩ := (live_iff hnamed).mpr hone
    exact ⟨(requested_iff htime).mpr htie, hlive, live_of hnamed, hcount,
      stopRows_perm.map stopOf, ended_eq hnamed htime⟩

theorem rowsOf_cases {α : Type} (rows : List α) (who : String) (opts : ReadOpts) :
    rowsOf rows who opts = .ok rows ∨ rowsOf rows who opts = .error (.cut who) := by
  unfold rowsOf
  split
  · exact Or.inr rfl
  · exact Or.inl rfl

/-- A read answers these facts, or is cut. -/
theorem read_cases (own : String) (hids : ids ≠ []) :
    read own ⟨some ids⟩ db = .ok (factsOf ids db) ∨
      read own ⟨some ids⟩ db = .error (.cut "job.read") := by
  have hsessions := sessionsOf_span own hids
  simp only [read, hsessions, Except.mapError, bind, Except.bind]
  -- the statements are read one after the other, and any of them may be cut
  rcases rowsOf_cases (endedRows ids db) "job.read" ⟨some ids⟩ with h | h <;> rw [h]
  · rcases rowsOf_cases (liveRows ids db) "job.read" ⟨some ids⟩ with h | h <;> rw [h]
    · rcases rowsOf_cases (requestedRows ids db) "job.read" ⟨some ids⟩ with h | h <;> rw [h]
      · rcases rowsOf_cases (stopRows ids db) "job.read" ⟨some ids⟩ with h | h <;> rw [h]
        · exact Or.inl rfl
        · exact Or.inr rfl
      · exact Or.inr rfl
    · exact Or.inr rfl
  · exact Or.inr rfl

/-! ### Reconciling -/

/-- What of a row a record of a job is. -/
def written (row : Row) : String × String × Obj :=
  (row.stream, row.event.kind, row.event.data)

theorem appendRows_eq (clock : ℕ → ℕ) (db : Database) (s : String) (events : List Obj) :
    ∃ more, appendRows clock db s events = db ++ more ∧ more.map written =
      events.map fun event => (s, Knl.kindOf event, Knl.objectField event "data") := by
  induction events generalizing db with
  | nil => exact ⟨[], (List.append_nil db).symm, rfl⟩
  | cons event events ih =>
      obtain ⟨more, hmore, hwritten⟩ := ih (appendRow clock db s event)
      refine ⟨⟨s, Knl.landed clock db s event⟩ :: more, ?_, ?_⟩
      · refine hmore.trans ?_
        rw [appendRow, List.append_assoc]
        rfl
      · rw [List.map_cons, List.map_cons, hwritten, written, Knl.landed_kind, Knl.landed_data]

section Reconciled

variable (own : String) (ids : List String) (db : Database)

/-- The rows are one end for each run that was live, and no run is live with
them. -/
structure Closes (lost : List Row) : Prop where
  ends : ∀ e ∈ lost, e.stream = own ∧ e.event.kind = "run_ended" ∧
    stringField e.event "outcome" = some "lost" ∧
      ∃ s ∈ unended ids db "run_started", SameField "job" e s ∧ SameField "run_id" e s
  each : ∀ id, some id ∈ lost.map (fun e => stringField e.event "run_id") ↔ id ∈ liveRuns ids db
  once : (lost.map fun e => stringField e.event "run_id").Nodup
  none_live : liveRuns ids (db ++ lost) = ∅

variable (clock : ℕ → ℕ)
  (pairs : List (Sigma fun _ : String => Live) → List (Sigma fun _ : String => Live)) (now : ℚ)

/-- What is read off the record is what it says, and reconciling closes the runs
that are live, once. -/
structure ReadsRecord : Prop where
  reads : ∃ facts, read own ⟨some ids⟩ db = .ok facts ∧ Says ids db facts
  reconciles : ∃ lost,
    reconcile clock pairs own now ⟨some ids⟩ db = (.ok lost.length, db ++ lost) ∧
      Closes own ids db lost ∧ ∀ later,
        (reconcile clock pairs own later ⟨some ids⟩ (db ++ lost)).2 = db ++ lost

end Reconciled

theorem mem_ofKind_append {kind : String} {more : List Row}
    (hmore : ∀ e ∈ more, e.event.kind ≠ kind) :
    row ∈ ofKind ids (db ++ more) kind ↔ row ∈ ofKind ids db kind := by
  rw [mem_ofKind, mem_ofKind, List.mem_append]
  constructor
  · rintro ⟨hdb | hnew, hin, hkind⟩
    · exact ⟨hdb, hin, hkind⟩
    · exact absurd hkind (hmore row hnew)
  · rintro ⟨hdb, hin, hkind⟩
    exact ⟨Or.inl hdb, hin, hkind⟩

/-- No run is live when each that was has an end more. -/
theorem liveRuns_append {own : String} {lost : List Row} (hown : own ∈ ids)
    (hlost : ∀ e ∈ lost, e.stream = own ∧ e.event.kind = "run_ended")
    (heach : ∀ id ∈ liveRuns ids db, some id ∈ lost.map fun e => stringField e.event "run_id") :
    liveRuns ids (db ++ lost) = ∅ := by
  apply Finset.eq_empty_of_forall_notMem
  intro id hid
  obtain ⟨s, hs, hrun⟩ := mem_liveRuns.mp hid
  obtain ⟨hstarted, hlive⟩ := mem_unended.mp hs
  have hkinds : ∀ e ∈ lost, e.event.kind ≠ "run_started" := by
    intro e he
    rw [(hlost e he).2]
    decide
  rw [mem_ofKind_append hkinds] at hstarted
  have hbefore : id ∈ liveRuns ids db := by
    refine mem_liveRuns.mpr ⟨s, mem_unended.mpr ⟨hstarted, ?_⟩, hrun⟩
    rintro id' hid' ⟨e, he, hended⟩
    obtain ⟨hdb, hin, hkind⟩ := mem_ofKind.mp he
    exact hlive id' hid' ⟨e, mem_ofKind.mpr ⟨List.mem_append_left _ hdb, hin, hkind⟩, hended⟩
  obtain ⟨e, he, hended⟩ := List.mem_map.mp (heach id hbefore)
  obtain ⟨hstream, hkind⟩ := hlost e he
  refine hlive id hrun ⟨e, mem_ofKind.mpr ⟨List.mem_append_right _ he, ?_, hkind⟩, hended⟩
  rw [hstream]
  exact hown

/-- Where no run is live, reconciling lands nothing. -/
theorem reconcile_none {own : String} {clock : ℕ → ℕ}
    {pairs : List (Sigma fun _ : String => Live) → List (Sigma fun _ : String => Live)}
    (hpairs : ∀ t, (pairs t).Perm t) (hids : ids ≠ []) (hlive : liveRows ids db = []) (now : ℚ) :
    (reconcile clock pairs own now ⟨some ids⟩ db).2 = db := by
  unfold reconcile
  rcases read_cases own hids with hread | hread <;> rw [hread]
  have hentries : (factsOf ids db).live.entries = [] := by
    show ((liveRows ids db).foldl keepLive ∅).entries = []
    rw [hlive]
    rfl
  dsimp only
  rw [hentries, (hpairs []).eq_nil]
  rfl

/-- The row of an end that is lost. -/
theorem lost_fields {own job id : String} {live : Live} {now : ℚ} (hrun : live.runId = some id)
    (hwritten : written row =
      (own, Knl.kindOf (lostEvent now job live), Knl.objectField (lostEvent now job live) "data")) :
    row.stream = own ∧ row.event.kind = "run_ended" ∧
      stringField row.event "job" = some job ∧ stringField row.event "run_id" = some id ∧
      stringField row.event "outcome" = some "lost" := by
  obtain ⟨hstream, hrest⟩ := Prod.mk.inj hwritten
  obtain ⟨hkind, hdata⟩ := Prod.mk.inj hrest
  have hdata : row.event.data = [("job", .str job), ("run_id", .str id), ("outcome", .str "lost"),
      ("took_s", .num (.float (now - live.started)))] := by
    rw [hdata]
    unfold lostEvent
    rw [hrun]
    rfl
  refine ⟨hstream, hkind, ?_⟩
  unfold stringField Knl.dataField
  rw [hdata]
  exact ⟨rfl, rfl, rfl⟩

/-- **Reconciling** closes each live run once, where they are one each. -/
theorem reconcile_closes {own : String} {clock : ℕ → ℕ}
    {pairs : List (Sigma fun _ : String => Live) → List (Sigma fun _ : String => Live)}
    (hpairs : ∀ t, (pairs t).Perm t) (hown : own ∈ ids) (hnamed : ∀ row ∈ db, Named row)
    (hfits : Fits ids db) (hone : OneEach ids db) (now : ℚ) :
    ∃ lost, reconcile clock pairs own now ⟨some ids⟩ db = (.ok lost.length, db ++ lost) ∧
      Closes own ids db lost ∧ ∀ later,
        (reconcile clock pairs own later ⟨some ids⟩ (db ++ lost)).2 = db ++ lost := by
  have hids : ids ≠ [] := List.ne_nil_of_mem hown
  obtain ⟨hjobs, hruns⟩ := (oneEach_iff hnamed).mp hone
  have hentries : (pairs (factsOf ids db).live.entries).Perm
      ((liveRows ids db).map fun s => ⟨jobName s, liveOf s⟩) := by
    rw [live_eq hnamed]
    exact (hpairs _).trans (Keyed.entries_keyed_perm liveOf hjobs)
  obtain ⟨lost, happended, hwritten⟩ := appendRows_eq clock db own
    ((pairs (factsOf ids db).live.entries).map fun r => lostEvent now r.1 r.2)
  rw [List.map_map] at hwritten
  have hstart : ∀ {s}, s ∈ liveRows ids db → s ∈ unended ids db "run_started" :=
    fun hs => (List.mem_insertionSort _).mp hs
  -- each row is the end of a run that was live
  have hlost : ∀ e ∈ lost, ∃ s ∈ liveRows ids db, e.stream = own ∧
      e.event.kind = "run_ended" ∧ stringField e.event "job" = some (jobName s) ∧
        stringField e.event "run_id" = some (runName s) ∧
          stringField e.event "outcome" = some "lost" := by
    intro e he
    have hmem := hwritten ▸ List.mem_map_of_mem he
    obtain ⟨r, hr, hrow⟩ := List.mem_map.mp hmem
    obtain ⟨s, hs, rfl⟩ := List.mem_map.mp (hentries.mem_iff.mp hr)
    exact ⟨s, hs, lost_fields (named_of_live hnamed (hstart hs)).2 hrow.symm⟩
  have hids' : (lost.map fun e => stringField e.event "run_id").Perm
      ((liveRows ids db).map fun s => some (runName s)) := by
    have hfield : (lost.map fun e => stringField e.event "run_id") =
        (lost.map written).map fun w => (w.2.2.get? "run_id").bind Json.asStr := by
      rw [List.map_map]
      rfl
    rw [hfield, hwritten, List.map_map]
    refine (hentries.map _).trans (.of_eq ?_)
    rw [List.map_map]
    apply List.map_congr_left
    intro s hs
    show ((Knl.objectField (lostEvent now (jobName s) (liveOf s)) "data").get? "run_id").bind
      Json.asStr = _
    have hrun : (liveOf s).runId = some (runName s) := (named_of_live hnamed (hstart hs)).2
    unfold lostEvent
    rw [hrun]
    rfl
  have hnone : liveRuns ids (db ++ lost) = ∅ := by
    refine liveRuns_append hown (fun e he => ?_) fun id hid => ?_
    · obtain ⟨s, -, hstream, hkind, -⟩ := hlost e he
      exact ⟨hstream, hkind⟩
    · rw [liveRuns_eq hnamed, List.mem_toFinset] at hid
      obtain ⟨s, hs, rfl⟩ := List.mem_map.mp hid
      exact hids'.mem_iff.mpr (List.mem_map_of_mem hs)
  refine ⟨lost, ?_, ⟨fun e he => ?_, fun id => ?_, ?_, hnone⟩, fun later => ?_⟩
  · unfold reconcile
    rw [read_ok own hids hfits]
    dsimp only
    rw [happended]
    have hlen := congrArg List.length hwritten
    rw [List.length_map, List.length_map] at hlen
    rw [hlen]
  · obtain ⟨s, hs, hstream, hkind, hjob, hrun, houtcome⟩ := hlost e he
    obtain ⟨hjob', hrun'⟩ := named_of_live hnamed (hstart hs)
    refine ⟨hstream, hkind, houtcome, s, hstart hs, ⟨?_, hjob.trans hjob'.symm⟩, ?_,
      hrun.trans hrun'.symm⟩
    · rw [hjob]
      exact Option.some_ne_none _
    · rw [hrun]
      exact Option.some_ne_none _
  · rw [hids'.mem_iff, liveRuns_eq hnamed, List.mem_toFinset, List.mem_map, List.mem_map]
    simp
  · rw [hids'.nodup_iff]
    have hmap := hruns.map (Option.some_injective String)
    rwa [List.map_map] at hmap
  · apply reconcile_none hpairs hids
    apply List.eq_nil_iff_forall_not_mem.mpr
    intro s hs
    have hs : s ∈ unended ids (db ++ lost) "run_started" := (List.mem_insertionSort _).mp hs
    obtain ⟨hdb, -, hkind⟩ := mem_ofKind.mp (mem_unended.mp hs).1
    rcases List.mem_append.mp hdb with hdb | hnew
    · have hrun := (hnamed s hdb).run
      rw [hkind] at hrun
      have hlive : runName s ∈ liveRuns ids (db ++ lost) :=
        mem_liveRuns.mpr ⟨s, hs, field_eq_some (hrun (by decide))⟩
      rw [hnone] at hlive
      exact absurd hlive (Finset.notMem_empty _)
    · obtain ⟨-, -, -, hended, -⟩ := hlost s hnew
      rw [hkind] at hended
      exact absurd hended (by decide)

/-! ### Every record there is -/

/-- The kinds a read looks at. -/
def RUN_KINDS : List String :=
  ["run_requested", "run_stop_requested", "run_started", "run_ended", "run_skipped"]

/-- What is appended to a stream of the manager: a record of a job, with what
else its data has, or an event of another kind. -/
inductive Entry where
  | runRequested (job : String) (asker : Option String)
  | runStopRequested (runId : String) (asker : Option String)
  | runStarted (job runId : String) (more : Obj)
  | runEnded (job runId outcome : String) (more : Obj)
  | runSkipped (job reason : String) (more : Obj)
  | other (kind : String) (data : Obj) (hkind : kind ∉ RUN_KINDS)

namespace Entry

def kind : Entry → String
  | runRequested _ _ => "run_requested"
  | runStopRequested _ _ => "run_stop_requested"
  | runStarted _ _ _ => "run_started"
  | runEnded _ _ _ _ => "run_ended"
  | runSkipped _ _ _ => "run_skipped"
  | other kind _ _ => kind

def data : Entry → Obj
  | runRequested job asker =>
      ("job", .str job) :: (asker.map fun who => ("by", .str who)).toList
  | runStopRequested runId asker =>
      ("run_id", .str runId) :: (asker.map fun who => ("by", .str who)).toList
  | runStarted job runId more => ("job", .str job) :: ("run_id", .str runId) :: more
  | runEnded job runId outcome more =>
      ("job", .str job) :: ("run_id", .str runId) :: ("outcome", .str outcome) :: more
  | runSkipped job reason more => ("job", .str job) :: ("reason", .str reason) :: more
  | other _ data _ => data

def toObj (e : Entry) : Obj := [("kind", .str e.kind), ("data", .obj e.data)]

end Entry

/-- The record of appends, each to its stream, at the times of the clock. -/
def recorded (clock : ℕ → ℕ) (appends : List (String × Entry)) : Database :=
  appends.foldl (fun db a => appendRow clock db a.1 a.2.toObj) []

theorem recorded_concat (clock : ℕ → ℕ) (appends : List (String × Entry)) (a : String × Entry) :
    recorded clock (appends ++ [a]) = recorded clock appends ++
      [⟨a.1, Knl.landed clock (recorded clock appends) a.1 a.2.toObj⟩] := by
  rw [recorded, List.foldl_append]
  rfl

/-- Every record of a job names its job and its run. -/
theorem recorded_named {clock : ℕ → ℕ} {appends : List (String × Entry)} :
    ∀ row ∈ recorded clock appends, Named row := by
  induction appends using List.reverseRecOn with
  | nil => exact fun row hrow => absurd hrow List.not_mem_nil
  | append_singleton appends a ih =>
      intro row hrow
      rw [recorded_concat] at hrow
      rcases List.mem_append.mp hrow with hrow | hrow
      · exact ih row hrow
      · rw [List.mem_singleton.mp hrow]
        obtain ⟨stream, entry⟩ := a
        cases entry with
        | other kind data hkind =>
            refine ⟨fun h => absurd ?_ hkind, fun h => absurd ?_ hkind⟩
            · change kind ∈ ["run_requested", "run_started", "run_skipped", "run_ended"] at h
              simp only [List.mem_cons, List.not_mem_nil, or_false, RUN_KINDS] at h ⊢
              tauto
            · change kind ∈ ["run_started", "run_ended", "run_stop_requested"] at h
              simp only [List.mem_cons, List.not_mem_nil, or_false, RUN_KINDS] at h ⊢
              tauto
        | runRequested job asker =>
            refine ⟨fun _ => nofun, fun h => ?_⟩
            change "run_requested" ∈ ["run_started", "run_ended", "run_stop_requested"] at h
            exact absurd h (by decide)
        | runStopRequested runId asker =>
            refine ⟨fun h => ?_, fun _ => nofun⟩
            change "run_stop_requested" ∈
              ["run_requested", "run_started", "run_skipped", "run_ended"] at h
            exact absurd h (by decide)
        | runStarted job runId more => exact ⟨fun _ => nofun, fun _ => nofun⟩
        | runEnded job runId outcome more => exact ⟨fun _ => nofun, fun _ => nofun⟩
        | runSkipped job reason more =>
            refine ⟨fun _ => nofun, fun h => ?_⟩
            change "run_skipped" ∈ ["run_started", "run_ended", "run_stop_requested"] at h
            exact absurd h (by decide)

theorem length_recorded (clock : ℕ → ℕ) (appends : List (String × Entry)) :
    (recorded clock appends).length = appends.length := by
  induction appends using List.reverseRecOn with
  | nil => rfl
  | append_singleton appends a ih =>
      rw [recorded_concat, List.length_append, List.length_append, ih]
      rfl

/-- A row has the time the clock had for its place. -/
theorem exists_clock {clock : ℕ → ℕ} {appends : List (String × Entry)} :
    ∀ row ∈ recorded clock appends, ∃ n < appends.length, row.event.epochMs = clock n := by
  induction appends using List.reverseRecOn with
  | nil => exact fun row hrow => absurd hrow List.not_mem_nil
  | append_singleton appends a ih =>
      intro row hrow
      rw [recorded_concat] at hrow
      rw [List.length_append, List.length_singleton]
      rcases List.mem_append.mp hrow with hrow | hrow
      · obtain ⟨n, hn, htime⟩ := ih row hrow
        exact ⟨n, Nat.lt_succ_of_lt hn, htime⟩
      · rw [List.mem_singleton.mp hrow]
        refine ⟨appends.length, Nat.lt_succ_self _, ?_⟩
        rw [← length_recorded clock]
        rfl

/-- The times of a record are related as those of the clock are. -/
theorem recorded_pairwise {clock : ℕ → ℕ} {R : ℕ → ℕ → Prop}
    (hclock : ∀ m n, m < n → R (clock m) (clock n)) (appends : List (String × Entry)) :
    (recorded clock appends).Pairwise fun a b => R a.event.epochMs b.event.epochMs := by
  induction appends using List.reverseRecOn with
  | nil => exact List.Pairwise.nil
  | append_singleton appends a ih =>
      rw [recorded_concat]
      refine List.pairwise_append.mpr ⟨ih, List.pairwise_singleton _ _, fun row hrow new hnew => ?_⟩
      obtain ⟨n, hn, htime⟩ := exists_clock row hrow
      rw [htime, List.mem_singleton.mp hnew]
      show R (clock n) (clock (recorded clock appends).length)
      rw [length_recorded]
      exact hclock n _ hn

/-- **What the manager reads is what its record says**, and reconciling closes
its live runs once, exactly where no statement finds more rows than a query
answers, no request that stands has an answer of its job before it in its own
millisecond, and the starts of live runs are of different jobs and different
runs. -/
theorem readsRecord_iff (clock : ℕ → ℕ) (hclock : Monotone clock)
    (appends : List (String × Entry)) (own : String) (ids : List String) (hown : own ∈ ids)
    (pairs : List (Sigma fun _ : String => Live) → List (Sigma fun _ : String => Live))
    (hpairs : ∀ t, (pairs t).Perm t) (now : ℚ) :
    ReadsRecord own ids (recorded clock appends) clock pairs now ↔
      Fits ids (recorded clock appends) ∧ NoTie ids (recorded clock appends) ∧
        OneEach ids (recorded clock appends) := by
  have hids : ids ≠ [] := List.ne_nil_of_mem hown
  have htime := recorded_pairwise (R := (· ≤ ·)) (fun m n h => hclock h.le) appends
  have hsays : Says ids _ (factsOf ids _) ↔ NoTie ids _ ∧ OneEach ids _ :=
    says_iff recorded_named htime
  constructor
  · rintro ⟨⟨facts, hread, hfacts⟩, -⟩
    have hfits := fits_of_read hids hread
    rw [read_ok own hids hfits] at hread
    obtain rfl := Except.ok.inj hread
    exact ⟨hfits, hsays.mp hfacts⟩
  · rintro ⟨hfits, h⟩
    exact ⟨⟨_, read_ok own hids hfits, hsays.mpr h⟩,
      reconcile_closes hpairs hown recorded_named hfits h.2 now⟩

/-- Where the clock moves between any two rows, no request is tied. -/
theorem noTie_of_strictMono {clock : ℕ → ℕ} (hclock : StrictMono clock)
    (appends : List (String × Entry)) : NoTie ids (recorded clock appends) := by
  intro before r after hdb _ _ s hs _
  have htime := recorded_pairwise (R := (· < ·)) (fun m n h => hclock h) appends
  rw [hdb] at htime
  exact (List.pairwise_append.mp htime).2.2 s hs r List.mem_cons_self

/-- A run that one manager left live, read and closed by the next. -/
theorem left_live_closed :
    ReadsRecord "new" ["old", "new"]
      (recorded id [("old", .runRequested "drain" (some "cli")),
        ("old", .runStarted "drain" "drain-1" []), ("new", .runRequested "drain" none)])
      id id 9 := by
  apply (readsRecord_iff id monotone_id _ "new" ["old", "new"] (by decide) id
    (fun t => .refl t) 9).mpr
  exact ⟨⟨by decide, by decide, by decide, by decide⟩, noTie_of_strictMono strictMono_id _,
    by decide⟩

/-- A request in the millisecond of the skip before it: nothing answered it, and
the read does not say so. -/
theorem request_after_skip_unread :
    ¬ ReadsRecord "new" ["new"]
      (recorded (fun _ => 5) [("new", .runSkipped "drain" "max_runs" []),
        ("new", .runRequested "drain" (some "cli"))]) (fun _ => 5) id 9 := by
  rintro ⟨⟨facts, hread, hsays⟩, -⟩
  rw [read_ok "new" (by decide) ⟨by decide, by decide, by decide, by decide⟩] at hread
  obtain rfl := Except.ok.inj hread
  exact absurd hsays.requested.length_eq (by decide)

end AgentBlock.Job
