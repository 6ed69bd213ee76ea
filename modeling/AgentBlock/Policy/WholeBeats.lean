/-
AgentBlock/Policy/WholeBeats.lean

What a window holds of each beat.

The cut is one place, so a beat is cut in two where its events go on past the
place a newer beat begins at: two drivers on one session write such a log.

Main results:

* `windowSlice_cut` — the slice, and what is before the cut;
* `wholeBeats_iff` — a window holds whole beats exactly where the newest beats
  begin after the others have ended;
* `interleaved_beats_are_cut`.
-/
import AgentBlock.Policy.Window

namespace AgentBlock.Policy

open Lua (record)

/-! ### Statement -/

/-- The events of a log are in the order of their `seq`. -/
def InSeqOrder (events : List Lua) : Prop :=
  events.Pairwise fun a b =>
    ∃ m n, a.get "seq" = .num m ∧ b.get "seq" = .num n ∧ m.lt n = true

/-- The event is one of this beat's. -/
def isOf (id : Label) (ev : Lua) : Bool := beatOf ev = some id

/-- The events before the first beat. -/
def seedOf (events : List Lua) : List Lua := events.takeWhile fun ev => (beatOf ev).isNone

/-- **A window holds whole beats**, those it does not report as dropped, and the
seed where it says so. -/
structure WholeBeats (events slice : List Lua) (report : WindowReport) : Prop where
  sublist : slice.Sublist events
  kept : ∀ id ∈ beatIds events, id ∉ report.dropped →
    slice.filter (isOf id) = events.filter (isOf id)
  dropped : ∀ id ∈ report.dropped, id ∈ beatIds events ∧ slice.filter (isOf id) = []
  seed : ∀ ev ∈ seedOf events, ev ∈ slice ↔ report.seedKept = true

/-- Once one of the newest beats has begun, no other beat goes on. -/
def Separate (events : List Lua) (tail : Nat) : Prop :=
  ∀ before ev after id, events = before ++ ev :: after →
    beatOf ev = some id → id ∈ (beatIds events).drop ((beatIds events).length - tail) →
    ∀ ev' ∈ after, ∀ id', beatOf ev' = some id' →
      id' ∈ (beatIds events).drop ((beatIds events).length - tail)

/-! ### The cut -/

section

variable {events : List Lua} {tail : Nat} {keepSeed : Bool} {id : Label}

theorem mem_beatIds : id ∈ beatIds events ↔ ∃ ev ∈ events, beatOf ev = some id := mem_firsts

theorem nodup_beatIds (events : List Lua) : (beatIds events).Nodup := nodup_firsts

theorem beatIds_eq_nil (h : beatIds events = []) : ∀ ev ∈ events, beatOf ev = none := by
  intro ev hev
  cases hid : beatOf ev with
  | none => rfl
  | some id =>
      have hmem := mem_beatIds.mpr ⟨ev, hev, hid⟩
      rw [h] at hmem
      cases hmem

/-- Where a beat first appears, the ids before it have appeared. -/
theorem firstAt_split {i : Nat} (hi : i < (beatIds events).length) :
    ∃ before ev after, events = before ++ ev :: after ∧ firstAt events i = before.length ∧
      beatOf ev = some ((beatIds events)[i]) ∧ beatIds before = (beatIds events).take i := by
  have hi' : i < (firsts beatOf events).length := by simpa [beatIds] using hi
  have hsplit : firsts beatOf events = (firsts beatOf events).take i ++
      (firsts beatOf events)[i] :: (firsts beatOf events).drop (i + 1) := by
    rw [List.getElem_cons_drop, List.take_append_drop]
  obtain ⟨before, ev, after, hevents, hplace, hev, hbefore⟩ := firsts_split hsplit
  refine ⟨before, ev, after, hevents, ?_, ?_, ?_⟩
  · rw [firstAt, List.getElem?_eq_getElem hi']
    exact hplace
  · rw [hev]
    simp [beatIds]
  · rw [beatIds, hbefore, List.map_take]
    rfl

/-- **The slice of a list that is cut**: the seed, what is left out, and the
rest, which begins with the oldest of the newest beats. -/
theorem windowSlice_cut (keepSeed : Bool) (htail : 1 ≤ tail) (h : tail < (beatIds events).length) :
    ∃ seed left ev rest, events = seed ++ left ++ ev :: rest ∧
      (∀ e ∈ seed, beatOf e = none) ∧ seedOf events = seed ∧
      beatIds (seed ++ left) = (beatIds events).take ((beatIds events).length - tail) ∧
      (∃ id, beatOf ev = some id ∧
        id ∈ (beatIds events).drop ((beatIds events).length - tail)) ∧
      windowSlice events tail keepSeed = ((if keepSeed then seed else []) ++ ev :: rest,
        { dropped := (beatIds events).take ((beatIds events).length - tail), kept := tail,
          seedKept := keepSeed }) := by
  have hcut : (beatIds events).length - tail < (beatIds events).length := by omega
  obtain ⟨before, ev, rest, hevents, hplace, hev, hbefore⟩ := firstAt_split hcut
  obtain ⟨seed, first, others, hevents', hplace', hfirst, hseed⟩ :=
    firstAt_split (show 0 < (beatIds events).length by omega)
  have hnone : ∀ e ∈ seed, beatOf e = none := beatIds_eq_nil hseed
  -- what is left out has a beat, so the seed ends before it does
  have hprefix : seed <+: before := by
    have hs : seed <+: events := ⟨_, hevents'.symm⟩
    have hb : before <+: events := ⟨_, hevents.symm⟩
    rcases List.prefix_or_prefix_of_prefix hs hb with hle | ⟨more, hmore⟩
    · exact hle
    · have hnil : beatIds before = [] := by
        refine List.eq_nil_iff_forall_not_mem.mpr fun id hid => ?_
        obtain ⟨e, he, hid⟩ := mem_beatIds.mp hid
        rw [hnone e (hmore ▸ List.mem_append_left _ he)] at hid
        cases hid
      rw [hbefore, List.take_eq_nil_iff] at hnil
      rcases hnil with hzero | hnil
      · omega
      · rw [hnil] at h
        cases h
  obtain ⟨left, rfl⟩ := hprefix
  refine ⟨seed, left, ev, rest, hevents, hnone, ?_, hbefore, ⟨_, hev, ?_⟩, ?_⟩
  · rw [seedOf, hevents', List.takeWhile_append_of_pos fun e he => by rw [hnone e he]; rfl,
      List.takeWhile_cons, hfirst]
    exact List.append_nil seed
  · exact List.mem_drop_iff_getElem.mpr ⟨0, by omega, rfl⟩
  · unfold windowSlice
    simp only [if_neg (not_le.mpr h), hplace, hplace']
    have htake : events.take seed.length = seed := by rw [hevents', List.take_left]
    have hdrop : events.drop (seed ++ left).length = ev :: rest := by
      rw [hevents, List.drop_left]
    rw [htake, hdrop]

theorem windowSlice_whole (h : (beatIds events).length ≤ tail) :
    windowSlice events tail keepSeed =
      (events, { dropped := [], kept := (beatIds events).length, seedKept := true }) :=
  if_pos h

/-! ### What is kept -/

theorem windowSlice_sublist (keepSeed : Bool) (htail : 1 ≤ tail ∨ beatIds events = []) :
    (windowSlice events tail keepSeed).1.Sublist events := by
  rcases le_or_gt (beatIds events).length tail with hle | hlt
  · rw [windowSlice_whole hle]
  · have htail : 1 ≤ tail := by
      refine htail.resolve_right fun hnil => ?_
      rw [hnil] at hlt
      cases hlt
    obtain ⟨seed, left, ev, rest, hevents, -, -, -, -, hslice⟩ :=
      windowSlice_cut keepSeed htail hlt
    rw [hslice, hevents, List.append_assoc]
    show ((if keepSeed then seed else []) ++ ev :: rest).Sublist _
    split
    · exact (List.Sublist.refl seed).append (List.sublist_append_right _ _)
    · exact (List.sublist_append_right _ _).trans (List.sublist_append_right _ _)

/-- A beat that is not dropped is whole. -/
theorem filter_windowSlice (keepSeed : Bool) (htail : 1 ≤ tail)
    (h : id ∉ (beatIds events).take ((beatIds events).length - tail)) :
    (windowSlice events tail keepSeed).1.filter (isOf id) = events.filter (isOf id) := by
  rcases le_or_gt (beatIds events).length tail with hle | hlt
  · rw [windowSlice_whole hle]
  · obtain ⟨seed, left, ev, rest, hevents, hnone, -, hbefore, -, hslice⟩ :=
      windowSlice_cut keepSeed htail hlt
    have hgone : (seed ++ left).filter (isOf id) = [] := by
      refine List.filter_eq_nil_iff.mpr fun e he hof => h ?_
      rw [← hbefore]
      exact mem_beatIds.mpr ⟨e, he, of_decide_eq_true hof⟩
    have hseed : (if keepSeed then seed else []).filter (isOf id) = [] := by
      refine List.filter_eq_nil_iff.mpr fun e he hof => ?_
      split at he
      · rw [isOf, hnone e he] at hof
        cases hof
      · cases he
    rw [hslice]
    show ((if keepSeed then seed else []) ++ ev :: rest).filter (isOf id) = _
    rw [List.filter_append, hseed, hevents, List.filter_append, hgone]

/-! ### Order -/

theorem seqOrder_nodup (h : InSeqOrder events) : events.Nodup := by
  refine h.imp ?_
  rintro a b ⟨m, n, hm, hn, hlt⟩ rfl
  have hmn : m = n := Lua.num.inj (hm.symm.trans hn)
  exact absurd hlt (Bool.eq_false_iff.mp (LuaNumber.not_lt_of_le' (by
    obtain ⟨hm, hn, hlt⟩ := LuaNumber.lt_iff_extended.mp hlt
    exact LuaNumber.le_iff_extended.mpr ⟨hn, hm, hmn ▸ le_rfl⟩)))

/-- The ids of the newest beats are not those of the others. -/
theorem not_mem_take_of_mem_drop {cut : Nat} (h : id ∈ (beatIds events).drop cut) :
    id ∉ (beatIds events).take cut := by
  have hnodup := nodup_beatIds events
  rw [← List.take_append_drop cut (beatIds events), List.nodup_append] at hnodup
  exact fun hmem => hnodup.2.2 id hmem id h rfl

theorem mem_drop_of_not_mem_take {cut : Nat} (hid : id ∈ beatIds events)
    (h : id ∉ (beatIds events).take cut) : id ∈ (beatIds events).drop cut := by
  rw [← List.take_append_drop cut (beatIds events), List.mem_append] at hid
  exact hid.resolve_left h

/-- **A window holds whole beats exactly where its beats begin after the others
have ended.**  The events are in the order of `seq`, as the log answers them.  The
window is cut at one place, where the oldest beat that it keeps begins, and a beat
that goes on behind that place is cut in two. -/
theorem wholeBeats_iff (hseq : InSeqOrder events) (htail : 1 ≤ tail) :
    WholeBeats events (windowSlice events tail keepSeed).1 (windowSlice events tail keepSeed).2 ↔
      Separate events tail := by
  rcases le_or_gt (beatIds events).length tail with hle | hlt
  · -- nothing is cut, and every beat is one of the newest
    rw [windowSlice_whole hle]
    have hcut : (beatIds events).length - tail = 0 := by omega
    refine iff_of_true ⟨List.Sublist.refl events, fun _ _ _ => rfl, nofun, fun ev hev => ?_⟩ ?_
    · exact iff_of_true ((List.takeWhile_sublist _).mem hev) rfl
    · intro before ev after id hevents hid hmem ev' hev' id' hid'
      rw [hcut, List.drop_zero, mem_beatIds]
      exact ⟨ev', hevents ▸ List.mem_append_right _ (List.mem_cons_of_mem _ hev'), hid'⟩
  · obtain ⟨seed, left, ev, rest, hevents, hnone, hseed, hbefore, ⟨id, hid, hidmem⟩, hslice⟩ :=
      windowSlice_cut keepSeed htail hlt
    rw [hslice]
    -- before the cut there are only the ids of the other beats
    have hother : ∀ e ∈ seed ++ left, ∀ id, beatOf e = some id →
        id ∈ (beatIds events).take ((beatIds events).length - tail) := by
      intro e he id hid
      rw [← hbefore]
      exact mem_beatIds.mpr ⟨e, he, hid⟩
    constructor
    · rintro ⟨-, -, hdropped, -⟩ before e after id hsplit he hmem ev' hev' id' hid'
      have hafter : ev' ∈ ev :: rest := by
        rw [hsplit] at hevents
        rcases List.append_eq_append_iff.mp hevents with ⟨more, hmore, hrest⟩ | ⟨more, -, hrest⟩
        · cases more with
          | nil =>
              obtain ⟨-, rfl⟩ := List.cons_eq_cons.mp hrest
              exact List.mem_cons_of_mem _ hev'
          | cons x more =>
              obtain ⟨rfl, -⟩ := List.cons_eq_cons.mp hrest
              have hmem' := hother e (by simp [hmore]) id he
              exact absurd hmem' (not_mem_take_of_mem_drop hmem)
        · rw [hrest]
          exact List.mem_append_right _ (List.mem_cons_of_mem _ hev')
      refine mem_drop_of_not_mem_take ?_ fun hmem' => ?_
      · exact mem_beatIds.mpr ⟨ev', hsplit ▸ by simp [hev'], hid'⟩
      · have hnil := (hdropped id' hmem').2
        rw [List.filter_eq_nil_iff] at hnil
        exact hnil ev' (List.mem_append_right _ hafter) (decide_eq_true hid')
    · intro hsep
      have hnewest : ∀ e ∈ ev :: rest, ∀ id', beatOf e = some id' →
          id' ∈ (beatIds events).drop ((beatIds events).length - tail) := by
        intro e he id' hid'
        rcases List.mem_cons.mp he with rfl | he
        · cases hid.symm.trans hid'
          exact hidmem
        · exact hsep (seed ++ left) ev rest id hevents hid hidmem e he id' hid'
      have hsublist := @windowSlice_sublist events tail keepSeed (.inl htail)
      rw [hslice] at hsublist
      refine ⟨hsublist, fun id' _ hkept => ?_, fun id' hid' => ⟨List.mem_of_mem_take hid', ?_⟩,
        fun e he => ?_⟩
      · have hfilter := filter_windowSlice keepSeed htail hkept
        rw [hslice] at hfilter
        exact hfilter
      · refine List.filter_eq_nil_iff.mpr fun e he hof => ?_
        have hid : beatOf e = some id' := of_decide_eq_true hof
        rcases List.mem_append.mp he with he | he
        · split at he
          · rw [hnone e he] at hid
            cases hid
          · cases he
        · exact not_mem_take_of_mem_drop (hnewest e he id' hid) hid'
      · rw [hseed] at he
        have hnodup := seqOrder_nodup hseq
        rw [hevents, List.append_assoc, List.nodup_append] at hnodup
        show e ∈ (if keepSeed then seed else []) ++ ev :: rest ↔ keepSeed = true
        cases keepSeed with
        | true => exact iff_of_true (List.mem_append_left _ he) rfl
        | false =>
            refine iff_of_false (fun hmem => ?_) nofun
            exact hnodup.2.2 e he e (List.mem_append_right _ hmem) rfl

end

/-! ### Two drivers on one session -/

/-- An event of a beat. -/
def noteOf (seq : Int) (id : String) : Lua :=
  record [("seq", .num (.int seq)), ("kind", .str "note"), ("meta", record [("beat", .str id)])]

theorem inSeqOrder_notes {notes : List (Int × String)} (h : notes.Pairwise fun a b => a.1 < b.1) :
    InSeqOrder (notes.map fun note => noteOf note.1 note.2) :=
  List.pairwise_map.mpr (h.imp fun hlt =>
    ⟨_, _, rfl, rfl, ((LuaNumber.is_int _).lt_iff (LuaNumber.is_int _)).mpr hlt⟩)

/-- Two beats that take turns. -/
def interleaved : List Lua :=
  [(1, "a"), (2, "b"), (3, "a"), (4, "b")].map fun note => noteOf note.1 note.2

/-- The window of the newer of two beats holds one event of the older. -/
theorem interleaved_beats_are_cut : InSeqOrder interleaved ∧
    interleaved.filter (isOf (.str "a")) = [noteOf 1 "a", noteOf 3 "a"] ∧
    (windowSlice interleaved 1 false).1.filter (isOf (.str "a")) = [noteOf 3 "a"] ∧
    (windowSlice interleaved 1 false).2.dropped = [.str "a"] ∧
    ¬WholeBeats interleaved (windowSlice interleaved 1 false).1
      (windowSlice interleaved 1 false).2 := by
  refine ⟨inSeqOrder_notes (by decide), rfl, rfl, rfl, fun h => ?_⟩
  exact nomatch (h.dropped (.str "a") List.mem_cons_self).2

/-- Beats one after the other. -/
theorem wholeBeats_in_turn :
    WholeBeats [noteOf 1 "a", noteOf 2 "b"] (windowSlice [noteOf 1 "a", noteOf 2 "b"] 1 false).1
      (windowSlice [noteOf 1 "a", noteOf 2 "b"] 1 false).2 ↔
    Separate [noteOf 1 "a", noteOf 2 "b"] 1 :=
  wholeBeats_iff (@inSeqOrder_notes [(1, "a"), (2, "b")] (by decide)) le_rfl

end AgentBlock.Policy
