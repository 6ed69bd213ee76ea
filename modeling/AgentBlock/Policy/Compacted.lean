/-
AgentBlock/Policy/Compacted.lean

The logs of the loops that compact: what a compaction mark stands for.

A log grows by whole pieces: an event of no beat, what one beat writes, an event
filed under the beat that has just run, a compaction, which is one beat and its
mark, and a copy of the front of another log.  Beats are counted by their labels
and marks are places; the two agree because no label is on both sides of a mark.

Main results:

* `Written.kept` — that, of every such log, and what is before each of its marks;
* `compaction_stands` — what two marks have between them, what a summarising
  request holds, and what a window reads from the newest summary on.
-/
import AgentBlock.Knl.Event
import AgentBlock.Lib.Split
import AgentBlock.Policy.Compact
import AgentBlock.Shell.BeatTrace

namespace AgentBlock.Policy

open Lua (record array)
open Shell (isKind dataOf BeatRecord IsResponse)

/-! ### One compaction -/

/-- The loops that compact. -/
inductive Loop where
  | coding
  | agent
  deriving DecidableEq

/-- A character that `%S` matches. -/
def isSolid (c : Char) : Bool := c ≠ ' ' && !(9 ≤ c.toNat && c.toNat ≤ 13)

def saysSomething (text : String) : Bool := text.toList.any isSolid

def isTextBlock (block : Lua) : Bool := (block.get "type").eq (.str "text")

section

variable (tostring : Lua → String)

/-- The text of an answer, where it says anything. -/
def Loop.summaryText (loop : Loop) (content : Lua) : Except Lua (Option String) := do
  let blocks ← (content.orElse (.table [] [])).ipairs
  match loop with
  | .coding =>
      -- a block of blanks is no part of the text
      let parts := (blocks.filter isTextBlock).filterMap fun block =>
        (block.get "text").asStr.filter saysSomething
      .ok (if parts.isEmpty then none else some ("\n".intercalate parts))
  | .agent => do
      let parts ← ((blocks.filter isTextBlock).filter fun block =>
        (block.get "text").truthy).mapM fun block => joinable tostring (block.get "text")
      let text := "\n".intercalate parts
      .ok (if saysSomething text then some text else none)

def compactMeta (why : String) : Lua := record [("label", .str "compact"), ("reason", .str why)]

def summaryEvent (why text : String) (l : Ledger) : Lua :=
  record [("kind", .str SUMMARY_KIND), ("meta", compactMeta why),
    ("data", record [("content", .str text), ("ledger", l.toLua)])]

def skippedEvent (why : String) : Lua :=
  record [("kind", .str COMPACT_SKIPPED_KIND), ("meta", compactMeta why),
    ("data", record [("why", .str "empty")])]

/-- The mark a loop leaves where the summarising beat answered. -/
def compactOnce (track kinds : List String) (loop : Loop) (why : String) (content : Lua)
    (log : List Lua × Bool) : Except Lua Lua := do
  match ← loop.summaryText tostring content with
  | none => .ok (skippedEvent why)
  | some text => do
      let l ← ledger tostring track kinds log
      .ok (summaryEvent why text l)

end

/-! ### Logs -/

/-- An event only the kernel writes. -/
def kernelOnly (ev : Lua) : Bool :=
  match ev.get "kind" with
  | .str kind => Knl.isKernelOnly kind
  | _ => false

/-- What one beat leaves in a log: the record of it, as far as it got, and among
its events the kernel's own, which are of no beat. -/
structure OneBeat (id : String) (events : List Lua) : Prop where
  own : ∃ full, BeatRecord (.str id) full ∧ events.filter (fun ev => !kernelOnly ev) <+: full
  kernels : ∀ ev ∈ events, kernelOnly ev = true → beatOf ev = none

section

variable (tostring : Lua → String) (n : Nat)

/-- **The logs of the loops that compact**, every one of them after at least `n`
beats. -/
inductive Written : List Lua → Prop
  | start : Written []
  /-- The seed, the notes of a loop, and the kernel's own events. -/
  | plain {log : List Lua} {ev : Lua} : Written log → beatOf ev = none → isMark ev = false →
      Written (log ++ [ev])
  | beat {log events : List Lua} {id : String} : Written log → .str id ∉ beatIds log →
      OneBeat id events → Written (log ++ events)
  /-- A check or a state of the files, under the beat that it is of. -/
  | late {log : List Lua} {ev : Lua} {id : Label} : Written log →
      id ∈ beatIds (log.drop (lastCutAt log)) → beatOf ev = some id → kernelOnly ev = false →
      isMark ev = false → Written (log ++ [ev])
  | compacted {log events : List Lua} {c : Compact} {why id : String} {resp e mark : Lua}
      {track kinds : List String} {loop : Loop} : Written log → n ≤ c.minBeats →
      c.due (log, false) = .ok (some why) → .str id ∉ beatIds log → OneBeat id events →
      e ∈ events → IsResponse (.str id) resp e →
      compactOnce tostring track kinds loop why (resp.get "content") (log ++ events, false) =
        .ok mark → Written (log ++ events ++ [mark])
  /-- A fork: what a session begins with, and a copy of the front of another log,
  without what only the kernel writes. -/
  | forked {log upto opening : List Lua} : Written log → upto <+: log →
      (∀ ev ∈ opening, beatOf ev = none ∧ isMark ev = false) →
      Written (opening ++ upto.filter fun ev => !kernelOnly ev)

end

/-! ### What a beat leaves -/

section

variable {id : String} {ev : Lua} {events : List Lua}

theorem kind_of_isMark (h : isMark ev = true) :
    ev.get "kind" = .str SUMMARY_KIND ∨ ev.get "kind" = .str COMPACT_SKIPPED_KIND :=
  (Bool.or_eq_true_iff.mp h).imp Lua.eq_str.mp Lua.eq_str.mp

/-- The kinds a beat writes. -/
def BEAT_KINDS : List String :=
  ["llm_request", "llm_response", "llm_call_failed", "tool_call", "tool_result"]

theorem kinds_of_pairs {id : Lua} {blocks evs : List Lua} (h : Shell.Pairs id blocks evs) :
    ∀ ev ∈ evs, ∃ kind ∈ BEAT_KINDS, ev.get "kind" = .str kind := by
  induction h with
  | nil => exact nofun
  | cons hcall hresult _ ih =>
      refine List.forall_mem_cons.mpr ⟨⟨_, ?_, hcall.kind⟩,
        List.forall_mem_cons.mpr ⟨⟨_, ?_, hresult.kind⟩, ih⟩⟩
      all_goals decide

theorem kinds_of_beatRecord {id : Lua} {full : List Lua} (h : BeatRecord id full) :
    ∀ ev ∈ full, ∃ kind ∈ BEAT_KINDS, ev.get "kind" = .str kind := by
  cases h with
  | failed hrequest hfailed =>
      refine List.forall_mem_cons.mpr ⟨⟨_, ?_, hrequest.kind⟩,
        List.forall_mem_singleton.mpr ⟨_, ?_, hfailed.kind⟩⟩
      all_goals decide
  | answered hrequest hresponse hpairs =>
      refine List.forall_mem_cons.mpr ⟨⟨_, ?_, hrequest.kind⟩,
        List.forall_mem_cons.mpr ⟨⟨_, ?_, hresponse.kind⟩, kinds_of_pairs hpairs⟩⟩
      all_goals decide

theorem isMark_of_kind {kind : String} (h : ev.get "kind" = .str kind)
    (hne : kind ≠ SUMMARY_KIND ∧ kind ≠ COMPACT_SKIPPED_KIND) : isMark ev = false := by
  refine Bool.eq_false_iff.mpr fun hmark => ?_
  rcases kind_of_isMark hmark with hkind | hkind
  · exact hne.1 (Lua.str.inj (h.symm.trans hkind))
  · exact hne.2 (Lua.str.inj (h.symm.trans hkind))

theorem not_mark_of_beat_kind :
    ∀ kind ∈ BEAT_KINDS, kind ≠ SUMMARY_KIND ∧ kind ≠ COMPACT_SKIPPED_KIND := by
  decide

theorem isMark_of_kernelOnly (h : kernelOnly ev = true) : isMark ev = false := by
  refine Bool.eq_false_iff.mpr fun hmark => ?_
  rcases kind_of_isMark hmark with hkind | hkind
  all_goals
    rw [kernelOnly, hkind] at h
    exact absurd h (by decide)

/-- An event that a beat leaves is one of its own, or one of the kernel's. -/
theorem OneBeat.own_or (h : OneBeat id events) (hev : ev ∈ events) :
    kernelOnly ev = false ∧ beatOf ev = some (.str id) ∧ isMark ev = false ∨
      kernelOnly ev = true ∧ beatOf ev = none ∧ isMark ev = false := by
  cases hkernel : kernelOnly ev with
  | true => exact .inr ⟨rfl, h.kernels ev hev hkernel, isMark_of_kernelOnly hkernel⟩
  | false =>
      obtain ⟨full, hfull, hpre⟩ := h.own
      have hmem : ev ∈ full :=
        hpre.subset (List.mem_filter.mpr ⟨hev, by rw [hkernel]; rfl⟩)
      obtain ⟨kind, hkind, hev⟩ := kinds_of_beatRecord hfull ev hmem
      refine .inl ⟨rfl, ?_, isMark_of_kind hev ?_⟩
      · rw [beatOf, hfull.stamped ev hmem]
        rfl
      · exact not_mark_of_beat_kind kind hkind

theorem OneBeat.not_mark (h : OneBeat id events) : ∀ ev ∈ events, isMark ev = false :=
  fun _ hev => (h.own_or hev).elim (fun h => h.2.2) fun h => h.2.2

theorem OneBeat.label (h : OneBeat id events) :
    ∀ ev ∈ events, beatOf ev = none ∨ beatOf ev = some (.str id) :=
  fun _ hev => (h.own_or hev).elim (fun h => .inr h.2.1) fun h => .inl h.2.1

/-- The beats of a list and of what is appended to it. -/
theorem mem_beatIds_append {more : List Lua} {id : Label} :
    id ∈ beatIds (events ++ more) ↔ id ∈ beatIds events ∨ id ∈ beatIds more := by
  simp only [mem_beatIds, List.mem_append, or_and_right, exists_or]

theorem OneBeat.mem_beatIds (h : OneBeat id events) {label : Label}
    (hlabel : label ∈ beatIds events) : label = .str id := by
  obtain ⟨ev, hev, hof⟩ := Policy.mem_beatIds.mp hlabel
  rcases h.label ev hev with hnone | hsome
  · rw [hnone] at hof
    cases hof
  · exact Option.some.inj (hof.symm.trans hsome)

/-- Without the events of no beat, a list has the beats it had. -/
theorem mem_beatIds_filter {keep : Lua → Bool} {label : Label}
    (h : ∀ ev ∈ events, keep ev = false → beatOf ev = none) :
    label ∈ beatIds (events.filter keep) ↔ label ∈ beatIds events := by
  rw [Policy.mem_beatIds, Policy.mem_beatIds]
  refine ⟨fun ⟨ev, hev, hof⟩ => ⟨ev, List.mem_of_mem_filter hev, hof⟩, fun ⟨ev, hev, hof⟩ => ?_⟩
  refine ⟨ev, List.mem_filter.mpr ⟨hev, ?_⟩, hof⟩
  by_contra hkeep
  rw [h ev hev (Bool.not_eq_true _ ▸ hkeep)] at hof
  cases hof

theorem length_beatIds_filter {keep : Lua → Bool}
    (h : ∀ ev ∈ events, keep ev = false → beatOf ev = none) :
    (beatIds (events.filter keep)).length = (beatIds events).length := by
  refine List.Perm.length_eq ((List.perm_ext_iff_of_nodup (nodup_beatIds _) (nodup_beatIds _)).mpr
    fun label => mem_beatIds_filter h)

end

/-! ### What a mark stands for -/

/-- **What is before a mark**: `n` beats or more since the mark before it, and
then the one beat that it was written by, which had not begun before. -/
structure StandsFor (n : Nat) (before : List Lua) (written : Label) (own : List Lua) : Prop where
  label : ∀ ev ∈ own, beatOf ev = none ∨ beatOf ev = some written
  wrote : ∃ ev ∈ own, beatOf ev = some written
  not_mark : ∀ ev ∈ own, isMark ev = false
  beats : ∃ front counted, before = front ++ counted ++ own ∧
    (∀ ev ∈ counted, isMark ev = false) ∧ n ≤ (beatIds counted).length ∧
    written ∉ beatIds (front ++ counted)

/-- What the loop left for a mark. -/
inductive IsLeft : Lua → Prop
  | summary (why text : String) (l : Ledger) : IsLeft (summaryEvent why text l)
  | skipped (why : String) : IsLeft (skippedEvent why)

/-- **No beat goes on past a mark**, and each mark has what it stands for before
it. -/
structure Kept (n : Nat) (log : List Lua) : Prop where
  kernels : ∀ ev ∈ log, kernelOnly ev = true → beatOf ev = none
  marks : ∀ before mark after, log = before ++ mark :: after → isMark mark = true →
    IsLeft mark ∧ (∃ written own, StandsFor n before written own) ∧
      ∀ id ∈ beatIds after, id ∉ beatIds before

section

variable {n : Nat} {log more : List Lua}

/-- Events that are no marks, under labels that are not before one. -/
theorem Kept.append (h : Kept n log) (hmore : ∀ ev ∈ more, isMark ev = false)
    (hkernels : ∀ ev ∈ more, kernelOnly ev = true → beatOf ev = none)
    (hnew : ∀ before mark after, log = before ++ mark :: after → isMark mark = true →
      ∀ id ∈ beatIds more, id ∉ beatIds before) : Kept n (log ++ more) where
  kernels ev hev := (List.mem_append.mp hev).elim (h.kernels ev) (hkernels ev)
  marks before mark after hlog hmark := by
    obtain ⟨rest, hrest, rfl⟩ := @Split.of_append_eq _ (fun ev => isMark ev = true) _ _ _ _ _
      (fun ev hev => by rw [hmore ev hev]; exact nofun) hmark hlog
    obtain ⟨hleft, hstands, hapart⟩ := h.marks before mark rest hrest hmark
    refine ⟨hleft, hstands, fun id hid => ?_⟩
    rcases mem_beatIds_append.mp hid with hid | hid
    · exact hapart id hid
    · exact hnew before mark rest hrest hmark id hid

/-- A mark, after what it stands for. -/
theorem Kept.mark {mark : Lua} (h : Kept n log) (hleft : IsLeft mark)
    (hstands : ∃ written own, StandsFor n log written own) (hnone : beatOf mark = none) :
    Kept n (log ++ [mark]) where
  kernels ev hev hkernel := by
    rcases List.mem_append.mp hev with hev | hev
    · exact h.kernels ev hev hkernel
    · rw [List.mem_singleton.mp hev]
      exact hnone
  marks before mark' after hlog hmark := by
    rcases List.eq_nil_or_concat after with rfl | ⟨rest, last, rfl⟩
    · -- it is the new one
      obtain ⟨rfl, hlast⟩ := List.append_inj' hlog rfl
      cases hlast
      exact ⟨hleft, hstands, nofun⟩
    · rw [List.concat_eq_append, ← List.cons_append, ← List.append_assoc] at hlog
      obtain ⟨hrest, hlast⟩ := List.append_inj' hlog rfl
      cases hlast
      obtain ⟨hleft, hstands, hapart⟩ := h.marks before mark' rest hrest hmark
      refine ⟨hleft, hstands, fun id hid => ?_⟩
      rw [List.concat_eq_append] at hid
      rcases mem_beatIds_append.mp hid with hid | hid
      · exact hapart id hid
      · obtain ⟨ev, hev, hof⟩ := mem_beatIds.mp hid
        rw [List.mem_singleton.mp hev, hnone] at hof
        cases hof

/-- What is copied of what a mark stands for is what it stands for. -/
theorem StandsFor.copied {before opening own : List Lua} {written : Label} {keep : Lua → Bool}
    (h : StandsFor n before written own)
    (hkeep : ∀ ev ∈ before, keep ev = false → beatOf ev = none)
    (hopening : ∀ ev ∈ opening, beatOf ev = none) :
    StandsFor n (opening ++ before.filter keep) written (own.filter keep) := by
  obtain ⟨front, counted, rfl, hcounted, hn, hnew⟩ := h.beats
  have hfront : ∀ ev ∈ front ++ counted, keep ev = false → beatOf ev = none :=
    fun ev hev => hkeep ev (List.mem_append_left _ hev)
  refine ⟨fun ev hev => h.label ev (List.mem_of_mem_filter hev), ?_,
    fun ev hev => h.not_mark ev (List.mem_of_mem_filter hev), opening ++ front.filter keep,
    counted.filter keep, ?_, fun ev hev => hcounted ev (List.mem_of_mem_filter hev), ?_, ?_⟩
  · obtain ⟨ev, hev, hof⟩ := h.wrote
    refine ⟨ev, List.mem_filter.mpr ⟨hev, ?_⟩, hof⟩
    by_contra hno
    rw [hkeep ev (List.mem_append_right _ hev) (Bool.not_eq_true _ ▸ hno)] at hof
    cases hof
  · simp only [List.filter_append, List.append_assoc]
  · rw [length_beatIds_filter fun ev hev => hfront ev (List.mem_append_right _ hev)]
    exact hn
  · rw [List.append_assoc, ← List.filter_append]
    intro hmem
    rcases mem_beatIds_append.mp hmem with hmem | hmem
    · obtain ⟨ev, hev, hof⟩ := mem_beatIds.mp hmem
      rw [hopening ev hev] at hof
      cases hof
    · exact hnew ((mem_beatIds_filter hfront).mp hmem)

/-- A copy of the front of a log, without what only the kernel writes. -/
theorem Kept.forked {upto opening : List Lua} (h : Kept n log) (hupto : upto <+: log)
    (hopening : ∀ ev ∈ opening, beatOf ev = none ∧ isMark ev = false) :
    Kept n (opening ++ upto.filter fun ev => !kernelOnly ev) where
  kernels ev hev hkernel := by
    rcases List.mem_append.mp hev with hev | hev
    · exact (hopening ev hev).1
    · exact h.kernels ev (hupto.subset (List.mem_of_mem_filter hev)) hkernel
  marks before mark after hlog hmark := by
    obtain ⟨copied, rfl, hcopied⟩ := @Split.of_prepend_eq _ (fun ev => isMark ev = true) _ _ _ _ _
      (fun ev hev => by rw [(hopening ev hev).2]; exact nofun) hmark hlog
    obtain ⟨front, rest, rfl, rfl, rfl⟩ := Split.of_filter_eq hcopied
    obtain ⟨others, rfl⟩ := hupto
    obtain ⟨hleft, ⟨written, own, hstands⟩, hapart⟩ :=
      h.marks front mark (rest ++ others) (by simp) hmark
    have hkeep : ∀ ev ∈ front ++ mark :: rest ++ others, (!kernelOnly ev) = false →
        beatOf ev = none :=
      fun ev hev hno => h.kernels ev hev (by simpa using hno)
    refine ⟨hleft, ⟨written, _, hstands.copied (fun ev hev => hkeep ev (by simp [hev]))
      fun ev hev => (hopening ev hev).1⟩, fun id hid hmem => ?_⟩
    have hid : id ∈ beatIds (rest ++ others) := by
      refine mem_beatIds_append.mpr (.inl ((mem_beatIds_filter ?_).mp hid))
      exact fun ev hev => hkeep ev (by simp [hev])
    refine hapart id hid ?_
    rcases mem_beatIds_append.mp hmem with hmem | hmem
    · obtain ⟨ev, hev, hof⟩ := mem_beatIds.mp hmem
      rw [(hopening ev hev).1] at hof
      cases hof
    · exact (mem_beatIds_filter fun ev hev => hkeep ev (by simp [hev])).mp hmem

end

/-! ### The logs -/

section

variable {tostring : Lua → String} {n : Nat} {log : List Lua}

/-- What a compaction leaves is a mark, of no beat. -/
theorem isLeft_of_compactOnce {track kinds : List String} {loop : Loop} {why : String}
    {content mark : Lua} {read : List Lua × Bool}
    (h : compactOnce tostring track kinds loop why content read = .ok mark) :
    IsLeft mark ∧ beatOf mark = none := by
  obtain ⟨text, -, h⟩ := Except.bind_eq_ok.mp h
  cases text with
  | none =>
      cases Except.ok.inj h
      exact ⟨.skipped why, rfl⟩
  | some text =>
      obtain ⟨l, -, h⟩ := Except.bind_eq_ok.mp h
      cases Except.ok.inj h
      exact ⟨.summary why text l, rfl⟩

/-- What is before a mark of a log is before everything since the latest one. -/
theorem sinceCut_of_split {before after : List Lua} {mark : Lua}
    (hlog : log = before ++ mark :: after) (hmark : isMark mark = true) :
    ∃ more, after = more ++ log.drop (lastCutAt log) := by
  obtain ⟨front, hfront, hno⟩ := sinceCut log
  obtain ⟨rest, -, hafter⟩ := @Split.of_append_eq _ (fun ev => isMark ev = true) _ _ _ _ _
    (fun ev hev => by rw [hno ev hev]; exact nofun) hmark (hfront.symm.trans hlog)
  exact ⟨rest, hafter⟩

/-- **Every such log**: step by step. -/
theorem Written.kept (h : Written tostring n log) : Kept n log := by
  induction h with
  | start => exact ⟨nofun, fun before mark after h => absurd h (by simp)⟩
  | plain _ hnone hmark ih =>
      refine ih.append (List.forall_mem_singleton.mpr hmark)
        (List.forall_mem_singleton.mpr fun _ => hnone) fun _ _ _ _ _ id hid => ?_
      obtain ⟨ev, hev, hof⟩ := mem_beatIds.mp hid
      rw [List.mem_singleton.mp hev, hnone] at hof
      cases hof
  | @beat log events id _ hnew hbeat ih =>
      refine ih.append hbeat.not_mark hbeat.kernels fun before mark after hlog _ label hlabel => ?_
      -- the beat is new, so it has begun nowhere before
      rw [hbeat.mem_beatIds hlabel]
      exact fun hmem => hnew (hlog ▸ mem_beatIds_append.mpr (.inl hmem))
  | @late log ev id _ hid hof hkernel hmark ih =>
      refine ih.append (List.forall_mem_singleton.mpr hmark)
        (List.forall_mem_singleton.mpr fun h => ?_)
        fun before mark after hlog hbefore label hl => ?_
      · rw [hkernel] at h
        cases h
      · -- its beat began after the latest mark, so after every one
        obtain ⟨ev', hev', hof'⟩ := mem_beatIds.mp hl
        rw [List.mem_singleton.mp hev', hof] at hof'
        obtain rfl := Option.some.inj hof'
        obtain ⟨more, hmore⟩ := sinceCut_of_split hlog hbefore
        refine (ih.marks before mark after hlog hbefore).2.2 id ?_
        rw [hmore]
        exact mem_beatIds_append.mpr (.inr hid)
  | @compacted log events c why id resp e mark track kinds loop _ hn hdue hnew hbeat he hresp
      hmark ih =>
      -- the beat of the summarising call, and then its mark
      obtain ⟨hleft, hnone⟩ := isLeft_of_compactOnce hmark
      have happend : Kept n (log ++ events) := by
        refine ih.append hbeat.not_mark hbeat.kernels fun before mark after hlog _ label hl => ?_
        rw [hbeat.mem_beatIds hl]
        exact fun hmem => hnew (hlog ▸ mem_beatIds_append.mpr (.inl hmem))
      refine happend.mark hleft
        ⟨.str id, events, hbeat.label, ⟨e, he, ?_⟩, hbeat.not_mark, ?_⟩ hnone
      · rw [beatOf, hresp.beat]
        rfl
      · obtain ⟨front, hfront, hno⟩ := sinceCut log
        refine ⟨front, _, congrArg (· ++ events) hfront, hno, hn.trans (c.le_of_due hdue), ?_⟩
        rw [← hfront]
        exact hnew
  | forked _ hupto hopening ih => exact ih.forked hupto hopening

/-- **Between two marks** at least `n` beats begin, and then the beat that wrote
the later one. -/
def BeginBetween (n : Nat) (before between : List Lua) : Prop :=
  ∃ (written : Label) (rest own : List Lua) (ids : List Label), between = rest ++ own ∧
    (∀ ev ∈ own, beatOf ev = none ∨ beatOf ev = some written) ∧
    (∃ ev ∈ own, beatOf ev = some written) ∧ written ∉ beatIds rest ∧
    ids.Nodup ∧ n ≤ ids.length ∧ ∀ id ∈ ids, id ∈ beatIds rest ∧ id ∉ beatIds before

theorem Kept.beginBetween (h : Kept n log) {before between after : List Lua} {mark mark' : Lua}
    (hlog : log = before ++ mark :: (between ++ mark' :: after)) (hmark : isMark mark = true)
    (hmark' : isMark mark' = true) : BeginBetween n before between := by
  obtain ⟨-, -, hapart⟩ := h.marks before mark _ hlog hmark
  obtain ⟨-, ⟨written, own, hstands⟩, -⟩ := h.marks (before ++ mark :: between) mark' after
    (by rw [hlog]; simp) hmark'
  obtain ⟨front, counted, hbefore, hcounted, hn, hnew⟩ := hstands.beats
  rw [List.append_assoc] at hbefore
  obtain ⟨rest, rfl, rfl⟩ := @Split.of_append_eq _ (fun ev => isMark ev = true) _ _ _ _ _
    (fun ev hev => by
      rw [(List.mem_append.mp hev).elim (hcounted ev) (hstands.not_mark ev)]
      exact nofun) hmark hbefore.symm
  have hsub : ∀ id, id ∈ beatIds counted → id ∈ beatIds (rest ++ counted) :=
    fun id hid => mem_beatIds_append.mpr (.inr hid)
  refine ⟨written, rest ++ counted, own, beatIds counted, (List.append_assoc ..).symm,
    hstands.label, hstands.wrote, fun hmem => hnew ?_, nodup_beatIds _, hn,
    fun id hid => ⟨hsub id hid, hapart id ?_⟩⟩
  · rw [List.append_assoc]
    refine mem_beatIds_append.mpr (.inr ?_)
    show written ∈ beatIds ([mark] ++ rest ++ counted)
    rw [List.append_assoc]
    exact mem_beatIds_append.mpr (.inr hmem)
  · rw [← List.append_assoc]
    exact mem_beatIds_append.mpr (.inl (mem_beatIds_append.mpr (.inl (hsub id hid))))

/-! ### What is read -/

theorem latest_eq_none {kind : String} {events : List Lua}
    (h : ∀ ev ∈ events, isKind kind ev = false) : latest kind events = none := by
  induction events with
  | nil => rfl
  | cons ev rest ih =>
      obtain ⟨hev, hrest⟩ := List.forall_mem_cons.mp h
      rw [latest, ih hrest]
      show (if isKind kind ev = true then _ else none) = none
      rw [hev]
      rfl

theorem latest_split {kind : String} {before after : List Lua} {ev : Lua}
    (hev : isKind kind ev = true) (hafter : ∀ e ∈ after, isKind kind e = false) :
    latest kind (before ++ ev :: after) = some (before, ev, after) := by
  induction before with
  | nil =>
      rw [List.nil_append, latest, latest_eq_none hafter]
      exact if_pos hev
  | cons first before ih => rw [List.cons_append, latest, ih]

/-- What is before the first beat of a list that has one, whatever follows. -/
theorem seedOf_append {before more : List Lua} (h : ∃ ev ∈ before, (beatOf ev).isNone = false) :
    seedOf (before ++ more) = before.takeWhile fun ev => (beatOf ev).isNone := by
  obtain ⟨ev, hev, hof⟩ := h
  rw [seedOf, List.takeWhile_append, if_neg]
  intro hlen
  have hall : before.takeWhile (fun ev => (beatOf ev).isNone) = before :=
    (List.takeWhile_prefix _).eq_of_length hlen
  have hev' : ev ∈ before.takeWhile fun ev => (beatOf ev).isNone := by
    rw [hall]
    exact hev
  have hnone : (beatOf ev).isNone = true :=
    @List.mem_takeWhile_imp _ (fun ev => (beatOf ev).isNone) before ev hev'
  rw [hof] at hnone
  cases hnone

/-- The one message that stands for what a summary is of. -/
def summaryMessage (text ledger : String) : Lua :=
  record [("kind", .str "msg_user"), ("data", record [("content", .str ("\n\n".intercalate
    [SUMMARY_PREFIX, "Summary:\n" ++ text, "Ledger:\n" ++ ledger]))])]

/-- **What is read from the newest summary on**: the seed, one message that holds
the summary's text and its ledger, and all that follows, which is nothing of the
beat that wrote it. -/
def ReadFrom (tostring : Lua → String) (log : List Lua) (summary : Lua) (after : List Lua) : Prop :=
  ∃ why text l ledger written, summary = summaryEvent why text l ∧
    renderLedger tostring l.toLua = .ok ledger ∧
    (∀ w : Window, w.fromSummary = true → w.read (renderSummary tostring) log =
      .ok (seedOf log ++ summaryMessage text ledger :: after)) ∧
    (∃ before own, log = before ++ own ++ summary :: after ∧ written ∉ beatIds before ∧
      (∀ ev ∈ own, beatOf ev = none ∨ beatOf ev = some written) ∧
      ∃ ev ∈ own, beatOf ev = some written) ∧
    written ∉ beatIds (seedOf log ++ summaryMessage text ledger :: after)

theorem Kept.readFrom (h : Kept n log) {before after : List Lua} {summary : Lua}
    (hlog : log = before ++ summary :: after) (hsummary : isKind SUMMARY_KIND summary = true)
    (hafter : ∀ ev ∈ after, isKind SUMMARY_KIND ev = false) :
    ReadFrom tostring log summary after := by
  have hmark : isMark summary = true := Bool.or_eq_true_iff.mpr (.inl hsummary)
  obtain ⟨hleft, ⟨written, own, hstands⟩, hapart⟩ := h.marks before summary after hlog hmark
  obtain ⟨front, counted, hbefore, -, -, hnew⟩ := hstands.beats
  obtain ⟨ev, hev, hof⟩ := hstands.wrote
  have hmem : written ∈ beatIds before :=
    mem_beatIds.mpr ⟨ev, hbefore ▸ List.mem_append_right _ hev, hof⟩
  cases hleft with
  | skipped why => exact absurd hsummary (by rw [Bool.not_eq_true]; rfl)
  | summary why text l =>
      obtain ⟨ledger, hledger, hrender⟩ := @renderSummary_toLua tostring text l
      have hseed : seedOf log = before.takeWhile fun ev => (beatOf ev).isNone := by
        rw [hlog]
        exact seedOf_append ⟨ev, hbefore ▸ List.mem_append_right _ hev, by rw [hof]; rfl⟩
      refine ⟨why, text, l, ledger, written, rfl, hledger, fun w hw => ?_,
        ⟨front ++ counted, own, ?_, hnew, hstands.label, hstands.wrote⟩, fun hshown => ?_⟩
      -- no summary comes after it, so this is the one the window reads from
      · have hlatest : latest "summary" log = some (before, summaryEvent why text l, after) := by
          rw [hlog]
          exact latest_split hsummary hafter
        rw [Window.read, if_pos hw, fromLatestSummary, hlatest]
        show (renderSummary tostring (record [("content", .str text), ("ledger", l.toLua)]) >>=
          fun content => _) = _
        rw [hrender, hseed]
        rfl
      · rw [hlog, ← hbefore]
      · rcases mem_beatIds_append.mp hshown with hseeded | hlater
        · obtain ⟨ev, hev, hof⟩ := mem_beatIds.mp hseeded
          have hnone : (beatOf ev).isNone = true :=
            @List.mem_takeWhile_imp _ (fun ev => (beatOf ev).isNone) log ev hev
          rw [hof] at hnone
          cases hnone
        · obtain ⟨ev, hev, hof⟩ := mem_beatIds.mp hlater
          rcases List.mem_cons.mp hev with rfl | hev
          · cases hof
          · exact hapart written (mem_beatIds.mpr ⟨ev, hev, hof⟩) hmem

end

/-! ### Compaction -/

/-- **A compaction replaces exactly what it stands for**: beats begin between two
marks, a summarising request is the one that was built as prose, and what is read
from a summary on is all that was not summarised. -/
theorem compaction_stands {tostring : Lua → String} {n : Nat} {log : List Lua}
    (h : Written tostring n log) (encode : Lua → Except Lua String) :
    (∀ before mark between mark' after, log = before ++ mark :: (between ++ mark' :: after) →
      isMark mark = true → isMark mark' = true → BeginBetween n before between) ∧
    (∀ before summary after, log = before ++ summary :: after →
      isKind SUMMARY_KIND summary = true → (∀ ev ∈ after, isKind SUMMARY_KIND ev = false) →
      ReadFrom tostring log summary after) ∧
    (∀ w : Window, (∀ ev ∈ log, isKind SUMMARY_KIND ev = false) →
      w.read (renderSummary tostring) log = .ok log) ∧
    (∀ (c : Compact) (device : Shell.Device) (out : Lua) (report : WindowReport),
      c.fold encode tostring log device = .ok (out, report) →
      ∃ request, c.inner log device = .ok (request, report) ∧
        Prosed encode tostring c.prompt request out) ∧
    ∀ (c : Compact) (device : Shell.Device) (request : Lua) (report : WindowReport)
      (messages : List Lua), c.inner log device = .ok (request, report) →
      request.isTable = true → request.get "messages" = array messages →
      (∀ message ∈ messages, message.isTable = true) →
      (∀ message ∈ messages, ∀ v ∈ proseValues (message.get "content"),
        ∃ t, asText encode v = .ok t) →
      ∃ out, c.fold encode tostring log device = .ok (out, report) := by
  refine ⟨fun before mark between mark' after hlog hmark hmark' =>
      h.kept.beginBetween hlog hmark hmark',
    fun before summary after hlog hsummary hafter => h.kept.readFrom hlog hsummary hafter,
    fun w hnone => ?_, fun c device out report hout => ?_,
    fun c device request report messages hinner htable hmessages hall hvalues => ?_⟩
  · have hlatest : latest "summary" log = none := latest_eq_none hnone
    rw [Window.read, fromLatestSummary, hlatest]
    exact ite_self _
  · obtain ⟨⟨request, report'⟩, hinner, hout⟩ := Except.bind_eq_ok.mp hout
    obtain ⟨sent, hsent, hout⟩ := Except.bind_eq_ok.mp hout
    cases Except.ok.inj hout
    exact ⟨request, hinner, appendPrompt_prosed hsent⟩
  · have hipairs : ((request.get "messages").orElse (.table [] [])).ipairs = .ok messages := by
      rw [hmessages]
      rfl
    have hindex : ∀ message ∈ messages, message.isIndexable = true := by
      intro message hmem
      have htable := hall message hmem
      cases message with
      | table items fields => rfl
      | _ => cases htable
    obtain ⟨out, hout⟩ :=
      @exists_appendPrompt encode tostring request messages c.prompt htable hipairs hindex hvalues
    refine ⟨out, ?_⟩
    show (c.inner log device >>= _) = _
    rw [hinner]
    show (appendPrompt encode tostring request c.prompt >>= _) = _
    rw [hout]
    rfl

/-! ### Two compactions -/

def answerOfTwo (answer : String) : Lua :=
  record [("content", array [record [("type", .str "text"), ("text", .str answer)]])]

/-- What a beat writes whose fold left a beat out. -/
def beatOfTwo (id answer : String) : List Lua :=
  [Shell.withBeat (Shell.llmRequestEvent (record []) (record [("dropped", array [.str "x"])]))
      (.str id),
    Shell.withBeat (Shell.llmResponseEvent (answerOfTwo answer)) (.str id)]

theorem oneBeat_beatOfTwo (id answer : String) : OneBeat id (beatOfTwo id answer) where
  own := by
    have hkeep : (beatOfTwo id answer).filter (fun ev => !kernelOnly ev) = beatOfTwo id answer :=
      rfl
    rw [hkeep]
    exact ⟨_, .answered (Shell.isRequest_event _ _ _) (Shell.isResponse_event _ _) .nil,
      List.prefix_rfl⟩
  kernels := List.forall_mem_cons.mpr ⟨nofun, List.forall_mem_singleton.mpr nofun⟩

/-- A request with a call in it, and its result. -/
def requestOfTwo : Lua :=
  record [("messages", array [
    Shell.assistantMessage (array [record [("type", .str "text"), ("text", .str "I look.")],
      record [("type", .str "tool_use"), ("name", .str "ls"), ("input", .str "src")]]),
    Shell.userMessage (array [record [("type", .str "tool_result"), ("content", .str "a b")]])])]

/-- A loop that asks for a summary after every beat. -/
def everyBeat : Compact where
  share := .int 1
  minBeats := 1
  prompt := "Sum up."
  inner := fun _ _ => .ok (requestOfTwo, { dropped := [], kept := 0, seedKept := true })
  share_pos := by decide
  share_le := by decide
  minBeats_pos := Nat.one_pos
  prompt_ne := by decide

def taskOfTwo : Lua :=
  record [("kind", .str "msg_user"), ("data", record [("content", .str "task")])]

/-- The log that is summarised. -/
def firstOfTwo : List Lua := taskOfTwo :: beatOfTwo "b1" "a" ++ beatOfTwo "b2" "so far"

/-- What follows, up to a summary that came back empty. -/
def secondOfTwo : List Lua := beatOfTwo "b3" "b" ++ beatOfTwo "b4" " "

def summaryOfTwo : Lua :=
  summaryEvent "dropped" "so far" (ledgerOf (fun _ => "") [] [] firstOfTwo)

theorem written_ofTwo : Written (fun _ => "") 1
    (firstOfTwo ++ summaryOfTwo :: (secondOfTwo ++ [skippedEvent "dropped"])) := by
  have hseed : Written (fun _ => "") 1 [taskOfTwo] := .plain .start rfl rfl
  have hfirst := hseed.beat (by decide) (oneBeat_beatOfTwo "b1" "a")
  have hsummary := @Written.compacted (fun _ => "") 1 _ (beatOfTwo "b2" "so far") everyBeat
    "dropped" "b2" (answerOfTwo "so far") _ _ [] [] .coding hfirst le_rfl rfl (by decide)
    (oneBeat_beatOfTwo _ _) (List.mem_cons_of_mem _ List.mem_cons_self)
    (Shell.isResponse_event _ _) rfl
  have hsecond := hsummary.beat (by decide) (oneBeat_beatOfTwo "b3" "b")
  exact @Written.compacted (fun _ => "") 1 _ (beatOfTwo "b4" " ") everyBeat "dropped"
    "b4" (answerOfTwo " ") _ _ [] [] .coding hsecond le_rfl rfl (by decide)
    (oneBeat_beatOfTwo _ _) (List.mem_cons_of_mem _ List.mem_cons_self)
    (Shell.isResponse_event _ _) rfl

/-- Two compactions, one after the other. -/
theorem two_compactions_stand :
    BeginBetween 1 firstOfTwo secondOfTwo ∧
    ReadFrom (fun _ => "") (firstOfTwo ++ summaryOfTwo :: (secondOfTwo ++ [skippedEvent "dropped"]))
      summaryOfTwo (secondOfTwo ++ [skippedEvent "dropped"]) ∧
    ∃ out, Prosed (fun _ => .ok "") (fun _ => "") "Sum up." requestOfTwo out := by
  have hstands := compaction_stands written_ofTwo fun _ => .ok ""
  have hdevice : Shell.Device := ⟨true, none, false, 0, .nil⟩
  obtain ⟨out, hout⟩ := hstands.2.2.2.2 everyBeat hdevice _ _ _ rfl rfl rfl
    (List.forall_mem_cons.mpr ⟨rfl, List.forall_mem_singleton.mpr rfl⟩)
    fun _ _ v _ => by cases v <;> exact ⟨_, rfl⟩
  obtain ⟨request, hrequest, hprosed⟩ := hstands.2.2.2.1 everyBeat hdevice out _ hout
  cases Except.ok.inj hrequest
  exact ⟨hstands.1 firstOfTwo summaryOfTwo secondOfTwo _ [] rfl rfl rfl,
    hstands.2.1 firstOfTwo summaryOfTwo _ rfl rfl (by decide), out, hprosed⟩

end AgentBlock.Policy
