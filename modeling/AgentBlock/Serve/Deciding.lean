/-
AgentBlock/Serve/Deciding.lean

What the loop holds between two steps: what a read has answered so far, and the
starts that a tick has decided.
-/
import AgentBlock.Serve.Leased

namespace AgentBlock.Serve

open Job
open Knl (Database Row stringField appendRow)
open Leases (Ev opens live Closed closes)

variable {ids : List String} {db : Database} {cfg : Config} {v v' : View}

/-! ### Phases -/

def Query.afterLive : Query → Bool
  | requested | stops => true
  | _ => false

section

variable (cfg : Config)

/-- No run id was made of this time or a later one. -/
def Old (v : View) (ms : ℕ) : Prop := ∀ job ms', ms ≤ ms' → ¬ Used cfg v (runId job ms')

def Started (v : View) (entries : List (Sigma fun _ : String => Live)) : Prop :=
  ∀ r ∈ entries, ∀ run, r.2.runId = some run → (r.1, run) ∈ opens (events cfg.ids v.db)

/-- What a read has answered of the ends and the live runs still bounds the record. -/
structure FactsGood (v : View) (facts : Facts) : Prop where
  landed : pend v.starts = []
  covers : ∀ o ∈ live (events cfg.ids v.db), facts.live.lookup o.1 ≠ none
  count : (live (events cfg.ids v.db)).length ≤ facts.liveCount
  ended : ∀ job, facts.live.lookup job = none → ∀ e ∈ v.db, IsEnd cfg.ids e → jobName e = job →
    ∃ x, facts.ended.lookup job = some x ∧ (e.event.epochMs : ℚ) / 1000 ≤ x
  started : Started cfg v facts.live.entries

/-- These may start. -/
structure Startable (v : View) (now : ℚ) (starts : List Start) : Prop where
  landed : pend v.starts = []
  names : (starts.map fun s => s.decl.name).Nodup
  idle : ∀ s ∈ starts, s.decl.name ∉ (live (events cfg.ids v.db)).map Prod.fst
  room : starts.length + (live (events cfg.ids v.db)).length ≤ cfg.maxRuns
  rested : ∀ s ∈ starts, s.requested = none → RestedAt cfg v.db s.decl.name (msOf now)

def GoodPhase (v : View) : Phase → Prop
  | .sleeping wake => Old cfg v (msOf wake)
  | .reading (.tick now _) next facts =>
      now ≤ v.time ∧ Old cfg v (msOf now) ∧ (next.afterLive = true → FactsGood cfg v facts)
  | .reading (.leave _ _) next facts =>
      v.runs = [] ∧ (next.afterLive = true → Started cfg v facts.live.entries)
  | .stopping now facts _ => now ≤ v.time ∧ Old cfg v (msOf now) ∧ Started cfg v facts.live.entries
  | .closing now facts _ e => now ≤ v.time ∧ Old cfg v (msOf now) ∧
      Started cfg v facts.live.entries ∧ ∃ job run outcome more, e = .runEnded job run outcome more
  | .skipping now _ starts => now ≤ v.time ∧ Old cfg v (msOf now) ∧ Startable cfg v now starts
  | .recording _ _ todo => v.runs = [] ∧ Started cfg v todo
  | _ => True

end

theorem Old.mono {ms ms' : ℕ} (h : Old cfg v ms) (hle : ms ≤ ms') : Old cfg v ms' :=
  fun job ms'' hms => h job ms'' (hle.trans hms)

section Later

variable (hl : Later cfg v v')

include hl

theorem Old.later {ms : ℕ} (h : Old cfg v ms) : Old cfg v' ms :=
  fun job ms' hms hused => h job ms' hms (hl.used _ hused)

theorem Started.later {entries : List (Sigma fun _ : String => Live)}
    (h : Started cfg v entries) : Started cfg v' entries :=
  fun r hr run hrun => hl.opened _ (h r hr run hrun)

theorem landed_later (h : pend v.starts = []) : pend v'.starts = [] := by
  apply List.eq_nil_iff_forall_not_mem.mpr
  intro p hp
  have hmem := hl.granted p hp
  rw [h] at hmem
  cases hmem

theorem FactsGood.later {facts : Facts} (h : FactsGood cfg v facts) :
    FactsGood cfg v' facts where
  landed := landed_later hl h.landed
  covers o ho := h.covers o ((hl.live h.landed).subset ho)
  count := (hl.live h.landed).length_le.trans h.count
  ended := by
    intro job hnone e he hend hjob
    rcases hl.ends e he hend with he | hlive
    · exact h.ended job hnone e he hend hjob
    · -- An end that lands later is of a run that was live.
      obtain ⟨o, ho, hname⟩ := List.mem_map.mp hlive
      exact absurd (by rw [hname, hjob]; exact hnone) (h.covers o ho)
  started := h.started.later hl

theorem Startable.later {now : ℚ} {starts : List Start} (h : Startable cfg v now starts) :
    Startable cfg v' now starts where
  landed := landed_later hl h.landed
  names := h.names
  idle s hs hmem := h.idle s hs (((hl.live h.landed).map _).subset hmem)
  room := by
    have hle := (hl.live h.landed).length_le
    have hroom := h.room
    omega
  rested := by
    intro s hs hasked e he hend hjob
    rcases hl.ends e he hend with he | hlive
    · exact h.rested s hs hasked e he hend hjob
    · rw [hjob] at hlive
      exact absurd hlive (h.idle s hs)

/-- What a phase relies on, nothing that lands takes away. -/
theorem GoodPhase.later {p : Phase} (h : GoodPhase cfg v p) : GoodPhase cfg v' p := by
  cases p with
  | sleeping wake => exact Old.later hl h
  | reading reader next facts =>
      cases reader with
      | tick now again =>
          exact ⟨h.1.trans hl.time, h.2.1.later hl, fun hnext => (h.2.2 hnext).later hl⟩
      | leave now handles => exact ⟨hl.handles h.1, fun hnext => (h.2 hnext).later hl⟩
  | stopping now facts todo => exact ⟨h.1.trans hl.time, h.2.1.later hl, h.2.2.later hl⟩
  | closing now facts todo e =>
      exact ⟨h.1.trans hl.time, h.2.1.later hl, h.2.2.1.later hl, h.2.2.2⟩
  | skipping now todo starts => exact ⟨h.1.trans hl.time, h.2.1.later hl, h.2.2.later hl⟩
  | aborting now handles => trivial
  | recording now handles todo => exact ⟨hl.handles h.1, h.2.later hl⟩
  | left => trivial

end Later

/-! ### What a read answers -/

theorem started_read (h : Core cfg v) {facts : Facts}
    (hlive : facts.live = (factsOf cfg.ids v.db).live) : Started cfg v facts.live.entries := by
  intro r hr run hrun
  rw [hlive] at hr
  obtain ⟨s, hs, hjob, hlive⟩ := live_of h.named r hr
  rw [opens_events]
  refine List.mem_map.mpr ⟨s, hs, Prod.ext ?_ ?_⟩
  · show (stringField s.event "job").getD "" = r.1
    rw [hjob]
    rfl
  · rw [hlive] at hrun
    change stringField s.event "run_id" = some run at hrun
    show (stringField s.event "run_id").getD "" = run
    rw [hrun]
    rfl

theorem factsGood_read (h : Core cfg v) (hlanded : pend v.starts = []) {facts : Facts}
    (hended : facts.ended = (factsOf cfg.ids v.db).ended)
    (hlive : facts.live = (factsOf cfg.ids v.db).live)
    (hcount : facts.liveCount = (factsOf cfg.ids v.db).liveCount) : FactsGood cfg v facts where
  landed := hlanded
  covers := by
    intro o ho hnone
    rw [live_events h.named] at ho
    obtain ⟨s, hs, rfl⟩ := List.mem_map.mp ho
    rw [hlive, live_eq h.named, AList.lookup_eq_none, Keyed.mem_keyed] at hnone
    exact hnone (List.mem_map_of_mem ((List.mem_insertionSort _).mpr hs))
  count := by
    rw [hcount, liveCount_eq h.named, live_events h.named, List.length_map, liveRows,
      List.length_insertionSort]
  ended := by
    intro job _ e he hend hjob
    rw [hended, ended_eq h.named h.times]
    have hfield : stringField e.event "job" = some job := by
      have hsome := (h.named e he).job
      rw [hend.2] at hsome
      rw [← hjob]
      exact field_eq_some (hsome (by decide))
    have hmem : e ∈ endsOf cfg.ids v.db (some job) :=
      List.mem_filter.mpr ⟨mem_ofKind.mpr ⟨he, hend⟩, decide_eq_true hfield⟩
    have hsorted : (endsOf cfg.ids v.db (some job)).Pairwise fun a b =>
        a.event.epochMs ≤ b.event.epochMs :=
      h.times.sublist (List.filter_sublist.trans List.filter_sublist)
    cases hlast : (endsOf cfg.ids v.db (some job)).getLast? with
    | none =>
        rw [List.getLast?_eq_none_iff.mp hlast] at hmem
        cases hmem
    | some last =>
        -- the ends are in the order of their times, so none is later than the last
        have hle : e.event.epochMs ≤ last.event.epochMs := by
          obtain ⟨init, hinit⟩ := List.getLast?_eq_some_iff.mp hlast
          rw [hinit] at hmem hsorted
          rcases List.mem_append.mp hmem with hmem | hmem
          · exact (List.pairwise_append.mp hsorted).2.2 e hmem last (List.mem_singleton_self _)
          · rw [List.mem_singleton.mp hmem]
        refine ⟨(last.event.epochMs : ℚ) / 1000, ?_, ?_⟩
        · show Option.map _ (endsOf cfg.ids v.db (some job)).getLast? = _
          rw [hlast]
          rfl
        · exact div_le_div_of_nonneg_right (Nat.cast_le.mpr hle) (by norm_num)
  started := started_read h hlive

/-! ### What a tick starts -/

theorem startOf_decl {facts : Facts} {now : ℚ} {decl : Declared} {s : Start}
    (h : startOf facts now decl = some s) : s.decl = decl := by
  obtain ⟨w, -, rfl⟩ := Option.map_eq_some_iff.mp h
  rfl

/-- A job that starts unasked is due. -/
theorem due_of_unasked {facts : Facts} {now : ℚ} {decl : Declared} {s : Start}
    (h : startOf facts now decl = some s) (hasked : s.requested = none) {every x : ℚ}
    (hevery : decl.every = some every) (hended : facts.ended.lookup decl.name = some x) :
    every ≤ now - x := by
  obtain ⟨w, hw, rfl⟩ := Option.map_eq_some_iff.mp h
  unfold wanted at hw
  rw [hevery, hended] at hw
  cases hrequest : newestRequest facts decl.name with
  | some request =>
      rw [hrequest] at hw
      obtain rfl := Option.some.inj hw
      cases hasked
  | none =>
      rw [hrequest] at hw
      by_contra hnot
      simp [hnot] at hw

/-- **What a tick starts may start**: each of a job without a live run, as many as
there is room for, and none too soon. -/
theorem startable_tick {facts : Facts} {now : ℚ} (hcore : Core cfg v) (h : FactsGood cfg v facts)
    (hjobs : (cfg.jobs.map Declared.name).Nodup)
    (hwhole : ∀ d ∈ cfg.jobs, ∀ every, d.every = some every → ∃ n : ℕ, every * 1000 = n) :
    Startable cfg v now (Job.tick facts now cfg.maxRuns cfg.jobs).start := by
  have hstart := (@tick_decides facts now cfg.maxRuns cfg.jobs).1
  have hfrom : ∀ s ∈ (Job.tick facts now cfg.maxRuns cfg.jobs).start,
      ∃ decl ∈ cfg.jobs, eligible facts now decl = true ∧ startOf facts now decl = some s := by
    intro s hs
    rw [hstart] at hs
    obtain ⟨decl, hdecl, hs⟩ := List.mem_filterMap.mp hs
    obtain ⟨hdecl, heligible⟩ := List.mem_filter.mp (List.mem_of_mem_take hdecl)
    exact ⟨decl, hdecl, heligible, hs⟩
  have hnone : ∀ decl, eligible facts now decl = true → facts.live.lookup decl.name = none := by
    intro decl heligible
    rw [eligible, Bool.and_eq_true, Option.isNone_iff_eq_none] at heligible
    exact heligible.2
  refine ⟨h.landed, ?_, ?_, ?_, ?_⟩
  -- each job is declared once, and is started once at most
  · have hnames : ∀ l : List Declared, ((l.filterMap (startOf facts now)).map
        fun s => s.decl.name).Sublist (l.map Declared.name) := by
      intro l
      induction l with
      | nil => exact List.Sublist.slnil
      | cons decl rest ih =>
          rw [List.filterMap_cons]
          cases hs : startOf facts now decl with
          | none => exact ih.cons _
          | some s =>
              rw [List.map_cons, List.map_cons, startOf_decl hs]
              exact ih.cons_cons _
    rw [hstart]
    refine hjobs.sublist ((hnames _).trans (List.Sublist.map _ ?_))
    exact (List.take_sublist _ _).trans List.filter_sublist
  · intro s hs hlive
    obtain ⟨decl, -, heligible, hs⟩ := hfrom s hs
    obtain ⟨o, ho, hname⟩ := List.mem_map.mp hlive
    apply h.covers o ho
    rw [hname, startOf_decl hs]
    exact hnone decl heligible
  · have hlen : (Job.tick facts now cfg.maxRuns cfg.jobs).start.length ≤
        cfg.maxRuns - facts.liveCount := by
      rw [hstart]
      exact (List.length_filterMap_le _ _).trans (List.length_take_le _ _)
    have hcount := h.count
    have hroom : (pend v.starts ++ live (events cfg.ids v.db)).length ≤ cfg.maxRuns :=
      hcore.leases.room
    rw [h.landed, List.nil_append] at hroom
    omega
  · intro s hs hasked e he hend hjob d hd hname every hevery
    obtain ⟨decl, hdecl, heligible, hs⟩ := hfrom s hs
    have hsame : s.decl = decl := startOf_decl hs
    rw [hsame] at hjob hname
    have hd' : d = decl := List.inj_on_of_nodup_map hjobs hd hdecl hname
    subst hd'
    obtain ⟨x, hx, hle⟩ := h.ended d.name (hnone d heligible) e he hend hjob
    -- it was not asked for, so its period since the last end is over
    have hdue := due_of_unasked hs hasked hevery hx
    obtain ⟨n, hn⟩ := hwhole d hd every hevery
    have hsum : ((e.event.epochMs + n : ℕ) : ℚ) ≤ now * 1000 := by
      push_cast
      rw [← hn]
      linarith
    have hfloor : ((e.event.epochMs + n : ℕ) : ℤ) ≤ ⌊now * 1000⌋ := by
      apply Int.le_floor.mpr
      exact_mod_cast hsum
    have hms : e.event.epochMs + n ≤ msOf now := by
      unfold msOf
      omega
    rw [hn]
    exact_mod_cast hms

end AgentBlock.Serve
