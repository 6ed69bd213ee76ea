/-
AgentBlock/Policy/Fitting.lean

The room-sized window is the best one that fits.

What is searched is only known to fit where it was looked at, so what is found
is the largest only where a longer window never counts less.  What a window
reads is the log, or the log from its latest summary on; the beats the summary
stands for are in neither the request nor its report.

Main results:

* `largestFitting_request`, `largestFitting_over` — what the search answers;
* `window_fits_best`;
* `window_forgets_summarised` — the newest beat of a log may be one its summary
  stands for.
-/
import AgentBlock.Policy.Division
import AgentBlock.Policy.WholeBeats
import AgentBlock.Shell.FoldStable

namespace AgentBlock.Policy

open Lua (record array)
open Shell (Device Readable)

/-! ### Statement -/

section

variable (encode : Lua → Except Lua String) (tostring : Lua → String)

/-- The candidates of a window never count less than shorter ones. -/
def Nested (room : Room) (keepSeed : Bool) (events : List Lua) (device : Device) (most : Nat) :
    Prop :=
  ∀ j k c d, 1 ≤ j → j ≤ k → k ≤ most →
    foldAt encode tostring room keepSeed events device j = .ok c →
    foldAt encode tostring room keepSeed events device k = .ok d → c.tokens.le d.tokens = true

/-- The request is the fold of the newest `k` beats and what is ahead of them. -/
structure IsWindowOf (w : Window) (events : List Lua) (device : Device) (k : Nat)
    (request : Lua) (tokens : LuaNumber) : Prop where
  folded : Shell.fold encode (array (windowSlice events k w.keepSeed).1) device = .ok request
  counted : w.room.count tostring request = .ok tokens

/-- **The fold is of the best window that fits**, of the events it reads, and
`fits` foretells it. -/
structure BestFitting (w : Window) (events : List Lua) (device : Device)
    (fold : Except Lua (Lua × WindowReport))
    (fits : Except Lua (Option (LuaNumber × LuaNumber))) : Prop where
  request : ∀ request report, fold = .ok (request, report) →
    fits = .ok none ∧ ∃ tokens, IsWindowOf encode tostring w events device report.kept request tokens ∧
      tokens.le w.room.limit = true ∧ report.kept ≤ mostBeats w.tail events ∧
      report.dropped = (beatIds events).take (beatCount events - report.kept) ∧
      ∀ id, (beatIds events).getLast? = some id →
        (windowSlice events report.kept w.keepSeed).1.filter (isOf id) = events.filter (isOf id)
  context : ∀ tokens limit, fits = .ok (some (tokens, limit)) →
    (∃ e, fold = .error e) ∧ limit = w.room.limit ∧ tokens.le limit = false ∧
      ∃ request, IsWindowOf encode tostring w events device (min 1 (beatCount events)) request tokens
  none : fits = .ok none → ∃ request report, fold = .ok (request, report)
  error : ∀ e, fits = .error e → fold = .error e
  largest : Nested encode tostring w.room w.keepSeed events device (mostBeats w.tail events) →
    ∀ request report, fold = .ok (request, report) → ∀ k c, report.kept < k →
      k ≤ mostBeats w.tail events →
      foldAt encode tostring w.room w.keepSeed events device k = .ok c →
      c.tokens.le w.room.limit = false
  answers : (∀ ev ∈ events, Readable encode ev) →
    (∀ request, ∃ tokens, w.room.count tostring request = .ok tokens) → ∃ answer, fits = .ok answer

end

/-! ### Candidates -/

section

variable {encode : Lua → Except Lua String} {tostring : Lua → String} {room : Room}
  {keepSeed : Bool} {events : List Lua} {device : Device} {k : Nat} {c : Candidate}

theorem foldAt_ok :
    foldAt encode tostring room keepSeed events device k = .ok c ↔
      Shell.fold encode (array (windowSlice events k keepSeed).1) device = .ok c.request ∧
        room.count tostring c.request = .ok c.tokens ∧
        c.report = (windowSlice events k keepSeed).2 := by
  constructor
  · intro h
    obtain ⟨request, hfold, h⟩ := Except.bind_eq_ok.mp h
    obtain ⟨tokens, hcount, h⟩ := Except.bind_eq_ok.mp h
    cases h
    exact ⟨hfold, hcount, rfl⟩
  · rintro ⟨hfold, hcount, hreport⟩
    refine Except.bind_eq_ok.mpr ⟨c.request, hfold, Except.bind_eq_ok.mpr ⟨c.tokens, hcount, ?_⟩⟩
    show Except.ok (Candidate.mk c.request c.tokens (windowSlice events k keepSeed).2) = .ok c
    rw [← hreport]

/-- What a candidate of so many beats reports. -/
theorem windowSlice_report (keepSeed : Bool) (hk : k ≤ beatCount events)
    (hpos : 1 ≤ k ∨ beatCount events = 0) :
    (windowSlice events k keepSeed).2.kept = k ∧
      (windowSlice events k keepSeed).2.dropped =
        (beatIds events).take (beatCount events - k) := by
  rcases hk.lt_or_eq with hlt | rfl
  · have htail : 1 ≤ k := by omega
    obtain ⟨_, _, _, _, -, -, -, -, -, hslice⟩ := windowSlice_cut keepSeed htail hlt
    rw [hslice]
    exact ⟨rfl, rfl⟩
  · have hslice : windowSlice events (beatCount events) keepSeed = _ := windowSlice_whole le_rfl
    rw [hslice, Nat.sub_self]
    exact ⟨rfl, rfl⟩

/-- The newest beat is never dropped. -/
theorem newest_kept {id : Label} (hpos : 1 ≤ k) (hid : (beatIds events).getLast? = some id) :
    (windowSlice events k keepSeed).1.filter (isOf id) = events.filter (isOf id) := by
  refine filter_windowSlice keepSeed hpos fun hmem => ?_
  obtain ⟨before, hbefore⟩ := List.getLast?_eq_some_iff.mp hid
  have hnodup := nodup_beatIds events
  rw [hbefore] at hmem hnodup
  rw [List.length_append, List.length_singleton, List.take_append_of_le_length (by omega)] at hmem
  rw [List.nodup_append] at hnodup
  exact hnodup.2.2 id (List.mem_of_mem_take hmem) id List.mem_cons_self rfl

theorem foldAt_readable (h : ∀ ev ∈ events, Readable encode ev)
    (hcount : ∀ request, ∃ tokens, room.count tostring request = .ok tokens)
    (hpos : 1 ≤ k ∨ beatCount events = 0) :
    ∃ c, foldAt encode tostring room keepSeed events device k = .ok c := by
  have hsublist := @windowSlice_sublist events k keepSeed
    (hpos.imp_right List.eq_nil_of_length_eq_zero)
  have hmessages := Shell.foldMessages_eq fun ev hev => h ev (hsublist.mem hev)
  have hfold : ∃ request,
      Shell.fold encode (array (windowSlice events k keepSeed).1) device = .ok request := by
    refine ⟨_, Except.bind_eq_ok.mpr ⟨_, rfl, Except.bind_eq_ok.mpr ⟨_, hmessages, rfl⟩⟩⟩
  obtain ⟨request, hrequest⟩ := hfold
  obtain ⟨tokens, htokens⟩ := hcount request
  exact ⟨⟨request, tokens, _⟩, foldAt_ok.mpr ⟨hrequest, htokens, rfl⟩⟩

end

/-! ### The search -/

section

variable {encode : Lua → Except Lua String} {tostring : Lua → String} {room : Room}
  {keepSeed : Bool} {events : List Lua} {device : Device} {tail : Option Nat}

theorem mostBeats_le (tail : Option Nat) (events : List Lua) :
    mostBeats tail events ≤ beatCount events := by
  cases tail with
  | none => exact le_rfl
  | some tail => exact min_le_right _ _

/-- A window keeps no beat only where there is none. -/
theorem mostBeats_pos (htail : ∀ n, tail = some n → 1 ≤ n) (h : mostBeats tail events < 1) :
    beatCount events = 0 := by
  cases tail with
  | none => exact Nat.lt_one_iff.mp h
  | some tail =>
      have := htail tail rfl
      have hmin : min tail (beatCount events) < 1 := h
      omega

/-- The search, where a request is answered: what was looked at, that it fits,
and, where longer windows never count less, that none of those does. -/
theorem largestFitting_request {request : Lua} {report : WindowReport}
    (htail : ∀ n, tail = some n → 1 ≤ n)
    (h : largestFitting encode tostring events device room tail keepSeed =
      .ok (.request request report)) :
    ∃ k c before, k ≤ mostBeats tail events ∧ (1 ≤ k ∨ beatCount events = 0) ∧
      foldAt encode tostring room keepSeed events device k = .ok c ∧ c.fits room = true ∧
      c.counted room before = .request request report ∧
      (Nested encode tostring room keepSeed events device (mostBeats tail events) →
        ∀ k' d, k < k' → k' ≤ mostBeats tail events →
          foldAt encode tostring room keepSeed events device k' = .ok d → d.fits room = false) := by
  rw [largestFitting] at h
  split at h
  · rename_i hmost
    obtain ⟨c, hc, h⟩ := Except.bind_eq_ok.mp h
    split at h
    · rename_i hfits
      refine ⟨0, c, c.tokens, by omega, .inr (mostBeats_pos htail hmost), hc, hfits,
        Except.ok.inj h, fun _ k' d hk hk' => ?_⟩
      have : mostBeats tail events < 1 := hmost
      omega
    · cases h
  · rename_i hmost
    have hpos : 1 ≤ mostBeats tail events := not_lt.mp hmost
    obtain ⟨whole, hwhole, h⟩ := Except.bind_eq_ok.mp h
    split at h
    · rename_i hfits
      exact ⟨mostBeats tail events, whole, whole.tokens, le_rfl, .inl hpos, hwhole, hfits,
        Except.ok.inj h, fun _ k' d hk hk' => absurd hk' (not_le.mpr hk)⟩
    · obtain ⟨best, hbest, h⟩ := Except.bind_eq_ok.mp h
      cases best with
      | none =>
          obtain ⟨smallest, -, h⟩ := Except.bind_eq_ok.mp h
          cases h
      | some best =>
          -- the search halves what is left, so only where the counts are nested is it the largest
          by_cases hnested :
              Nested encode tostring room keepSeed events device (mostBeats tail events)
          · have hmono : ∀ j k c d, fewestBeats ≤ j → j ≤ k → k < mostBeats tail events + 1 →
                foldAt encode tostring room keepSeed events device j = .ok c →
                foldAt encode tostring room keepSeed events device k = .ok d →
                d.fits room = true → c.fits room = true :=
              fun j k c d hj hjk hk hc hd hfits => LuaNumber.le_trans'
                (hnested j k c d hj hjk (Nat.le_of_lt_succ hk) hc hd) hfits
            obtain ⟨k, hk, hkmost, hc, hfits, hmax⟩ :=
              (bisect_largest hmono hbest).resolve_left fun h => nomatch h.1
            exact ⟨k, best, whole.tokens, Nat.le_of_lt_succ hkmost, .inl hk, hc, hfits,
              Except.ok.inj h, fun _ k' d hk' hmost' => hmax k' d hk' (Nat.lt_succ_of_le hmost')⟩
          · obtain ⟨k, hk, hkmost, hc, hfits⟩ := (bisect_some hbest).resolve_left nofun
            exact ⟨k, best, whole.tokens, Nat.le_of_lt_succ hkmost, .inl hk, hc, hfits,
              Except.ok.inj h, fun hnested' => absurd hnested' hnested⟩

/-- The search, where none is: the smallest window does not fit. -/
theorem largestFitting_over {tokens limit : LuaNumber} {counted : Counted}
    (htail : ∀ n, tail = some n → 1 ≤ n)
    (h : largestFitting encode tostring events device room tail keepSeed =
      .ok (.over tokens limit counted)) :
    limit = room.limit ∧ ∃ c, foldAt encode tostring room keepSeed events device
      (min 1 (beatCount events)) = .ok c ∧ c.tokens = tokens ∧ c.fits room = false := by
  have hbeats := mostBeats_le tail events
  rw [largestFitting] at h
  split at h
  · rename_i hmost
    obtain ⟨c, hc, h⟩ := Except.bind_eq_ok.mp h
    split at h
    · cases h
    · rename_i hfits
      cases h
      rw [mostBeats_pos htail hmost]
      exact ⟨rfl, c, hc, rfl, Bool.eq_false_iff.mpr hfits⟩
  · rename_i hmost
    have hpos : 1 ≤ mostBeats tail events := not_lt.mp hmost
    have hone : min 1 (beatCount events) = 1 := by omega
    obtain ⟨whole, hwhole, h⟩ := Except.bind_eq_ok.mp h
    split at h
    · cases h
    · obtain ⟨best, hbest, h⟩ := Except.bind_eq_ok.mp h
      cases best with
      | some best => cases h
      | none =>
          obtain ⟨smallest, hsmallest, h⟩ := Except.bind_eq_ok.mp h
          cases h
          obtain ⟨c, hc, hfits⟩ := (bisect_none hbest).2 (Nat.lt_succ_of_le hpos)
          cases hsmallest.symm.trans hc
          rw [hone]
          exact ⟨rfl, smallest, hsmallest, rfl, hfits⟩

/-- What can be read and counted is searched to the end. -/
theorem largestFitting_ne_error {e : Lua} (htail : ∀ n, tail = some n → 1 ≤ n)
    (hread : ∀ ev ∈ events, Readable encode ev)
    (hcount : ∀ request, ∃ tokens, room.count tostring request = .ok tokens) :
    largestFitting encode tostring events device room tail keepSeed ≠ .error e := by
  have hcandidate : ∀ k, 1 ≤ k ∨ beatCount events = 0 →
      ∃ c, foldAt encode tostring room keepSeed events device k = .ok c :=
    fun k hpos => foldAt_readable hread hcount hpos
  rw [largestFitting]
  split
  · rename_i hmost
    obtain ⟨c, hc⟩ := hcandidate 0 (.inr (mostBeats_pos htail hmost))
    simp only [hc, bind, Except.bind]
    split <;> exact nofun
  · rename_i hmost
    obtain ⟨whole, hwhole⟩ := hcandidate (mostBeats tail events) (.inl (not_lt.mp hmost))
    simp only [hwhole, bind, Except.bind]
    split
    · exact nofun
    · obtain ⟨best, hbest⟩ := @bisect_ok _ _ (foldAt encode tostring room keepSeed events device)
        (Candidate.fits room) fewestBeats (mostBeats tail events + 1) none
        fun k hk _ => hcandidate k (.inl hk)
      obtain ⟨smallest, hsmallest⟩ := hcandidate fewestBeats (.inl le_rfl)
      rw [hbest]
      cases best with
      | some best => exact nofun
      | none =>
          simp only [hsmallest]
          exact nofun

end

/-! ### Fold and fits -/

section

variable {encode : Lua → Except Lua String} {tostring : Lua → String}
  {renderSummary : Lua → Except Lua String} {w : Window} {events read : List Lua} {device : Device}

theorem refuse_error (w : Window) (tokens limit : LuaNumber) (counted : Counted) :
    ∃ e, w.refuse tokens limit counted = .error e := by
  unfold Window.refuse
  cases formatInt tokens with
  | error e => exact ⟨e, rfl⟩
  | ok t =>
      cases formatInt limit with
      | error e => exact ⟨e, rfl⟩
      | ok l => cases counted <;> exact ⟨_, rfl⟩

/-- Both read the log alike, and then make the same search. -/
theorem fold_fits (h : w.read renderSummary events = .ok read) :
    (∃ e, largestFitting encode tostring read device w.room w.tail w.keepSeed = .error e ∧
      w.fold encode tostring renderSummary events device = .error e ∧
      w.fits encode tostring renderSummary (events, false) device = .error e) ∨
    (∃ request report, largestFitting encode tostring read device w.room w.tail w.keepSeed =
        .ok (.request request report) ∧
      w.fold encode tostring renderSummary events device = .ok (request, report) ∧
      w.fits encode tostring renderSummary (events, false) device = .ok none) ∨
    (∃ tokens limit counted, largestFitting encode tostring read device w.room w.tail w.keepSeed =
        .ok (.over tokens limit counted) ∧
      w.fold encode tostring renderSummary events device = w.refuse tokens limit counted ∧
      w.fits encode tostring renderSummary (events, false) device =
        .ok (some (tokens, limit))) := by
  have hlog : wholeLog (events, false) "policy.window fits" = .ok events := rfl
  simp only [Window.fold, Window.fits, hlog, h, bind, Except.bind]
  cases largestFitting encode tostring read device w.room w.tail w.keepSeed with
  | error e => exact .inl ⟨e, rfl, rfl, rfl⟩
  | ok fitted =>
      rcases fitted with ⟨request, report⟩ | ⟨tokens, limit, counted⟩
      · exact .inr (.inl ⟨request, report, rfl, rfl, rfl⟩)
      · exact .inr (.inr ⟨tokens, limit, counted, rfl, rfl, rfl⟩)

/-- **The window is the best that fits.**  Nothing is assumed of the count.  That no
larger window fits is said where a window never counts less than a shorter one
(`Nested`), since the candidates are searched by bisection; all else holds of any
count. -/
theorem window_fits_best (encode : Lua → Except Lua String) (tostring : Lua → String)
    (renderSummary : Lua → Except Lua String) (w : Window) (events : List Lua) (device : Device) :
    (∀ e, w.read renderSummary events = .error e →
      w.fold encode tostring renderSummary events device = .error e ∧
        w.fits encode tostring renderSummary (events, false) device = .error e) ∧
    ∀ read, w.read renderSummary events = .ok read →
      BestFitting encode tostring w read device
        (w.fold encode tostring renderSummary events device)
        (w.fits encode tostring renderSummary (events, false) device) := by
  refine ⟨fun e he => ?_, fun read hread => ?_⟩
  · have hlog : wholeLog (events, false) "policy.window fits" = .ok events := rfl
    simp only [Window.fold, Window.fits, hlog, he, bind, Except.bind, and_self]
  rcases fold_fits hread with ⟨e, hsearch, hfold, hfits⟩ | ⟨request, report, hsearch, hfold, hfits⟩ |
    ⟨tokens, limit, counted, hsearch, hfold, hfits⟩
  · rw [hfold, hfits]
    constructor
    · intro _ _ h
      cases h
    · intro _ _ h
      cases h
    · intro h
      cases h
    · intro e' he'
      cases he'
      rfl
    · intro _ _ _ h
      cases h
    · intro hreadable hcount
      exact absurd hsearch (largestFitting_ne_error w.tail_pos hreadable hcount)
  · rw [hfold, hfits]
    obtain ⟨k, c, before, hk, hpos, hc, hcfits, hcounted, hlargest⟩ :=
      largestFitting_request w.tail_pos hsearch
    obtain ⟨hrequest, hcount, hreport⟩ := foldAt_ok.mp hc
    obtain ⟨rfl, rfl⟩ := Fitted.request.inj hcounted
    obtain ⟨hkept, hdropped⟩ :=
      windowSlice_report w.keepSeed (hk.trans (mostBeats_le w.tail read)) hpos
    rw [← hreport] at hkept hdropped
    refine ⟨fun _ _ h => ?_, nofun, fun _ => ⟨_, _, rfl⟩, nofun, fun hnested _ _ h k' d hk' => ?_,
      fun _ _ => ⟨_, rfl⟩⟩
    · cases h
      show Except.ok none = .ok none ∧ ∃ tokens, IsWindowOf encode tostring w read device
        c.report.kept c.request tokens ∧ tokens.le w.room.limit = true ∧
        c.report.kept ≤ mostBeats w.tail read ∧
        c.report.dropped = (beatIds read).take (beatCount read - c.report.kept) ∧
        ∀ id, (beatIds read).getLast? = some id →
          (windowSlice read c.report.kept w.keepSeed).1.filter (isOf id) = read.filter (isOf id)
      rw [hkept]
      refine ⟨rfl, c.tokens, ⟨hrequest, hcount⟩, hcfits, hk, hdropped, fun id hid => ?_⟩
      refine newest_kept (hpos.resolve_right fun hzero => ?_) hid
      rw [List.eq_nil_of_length_eq_zero hzero] at hid
      cases hid
    · cases h
      exact hlargest hnested k' d (hkept ▸ hk')
  · rw [hfold, hfits]
    obtain ⟨rfl, c, hc, rfl, hcfits⟩ := largestFitting_over w.tail_pos hsearch
    obtain ⟨hrequest, hcount, -⟩ := foldAt_ok.mp hc
    obtain ⟨e, he⟩ := refuse_error w c.tokens w.room.limit counted
    rw [he]
    constructor
    · intro _ _ h
      cases h
    · intro _ _ h
      cases h
      exact ⟨⟨e, rfl⟩, rfl, hcfits, c.request, hrequest, hcount⟩
    · intro h
      cases h
    · intro e' h
      cases h
    · intro _ _ _ h
      cases h
    · exact fun _ _ => ⟨_, rfl⟩

end

/-! ### What a summary stands for -/

/-- What is said in a history is in its request. -/
theorem said_in_request {encode : Lua → Except Lua String} {events : List Lua} {device : Device}
    {request ev message : Lua} {ids : List Lua}
    (h : Shell.fold encode (array events) device = .ok request) (hev : ev ∈ events)
    (hsaid : Shell.heard encode ev = .said message ids) :
    ∃ messages, request.get "messages" = array messages ∧ message ∈ messages := by
  obtain ⟨before, after, rfl⟩ := List.append_of_mem hev
  refine ⟨_, Shell.fold_ok h, ?_⟩
  obtain ⟨more, hmore⟩ :=
    Shell.flatMap_turns { message := some message, ids } (Shell.hearing encode after)
  have hturns : Shell.turnsOf encode (before ++ ev :: after) =
      Shell.turnsOf encode before ++
        Shell.turns { message := some message, ids } (Shell.hearing encode after) := by
    rw [Shell.turnsOf, Shell.hearing, List.map_append, List.map_cons, hsaid, Shell.turns_said]
    rfl
  rw [hturns, List.flatMap_append, hmore]
  exact List.mem_append_right _ (List.mem_append_left _ List.mem_cons_self)

/-- A task, a beat that answered it, and a summary of both. -/
def summarised : List Lua :=
  [record [("kind", .str "msg_user"), ("data", record [("content", .str "task")])],
    record [("kind", .str "llm_response"), ("meta", record [("beat", .str "b1")]),
      ("data", record [("content", .str "done")])],
    record [("kind", .str "summary"), ("data", record [("content", .str "it is done")])]]

/-- A window that reads a log from its latest summary on. -/
def fromSummary : Window where
  room := uncappedRoom 32768 (.float (1 / 4)) (.float (1 / 2))
  tail := none
  keepSeed := true
  fromSummary := true
  tail_pos := nofun
  summary_kept := fun _ => rfl

def noTools : Device := ⟨true, none, false, 0, .nil⟩

/-- The request of such a log does not hold its newest beat. -/
theorem window_forgets_summarised : ∃ request report,
    fromSummary.fold (fun _ => .ok "") (fun _ => "") (fun _ => .ok "summary") summarised noTools =
      .ok (request, report) ∧
    (beatIds summarised).getLast? = some (.str "b1") ∧
    ¬∃ slice, Shell.fold (fun _ => .ok "") (array slice) noTools = .ok request ∧
      slice.filter (isOf (.str "b1")) = summarised.filter (isOf (.str "b1")) := by
  refine ⟨_, _, rfl, rfl, ?_⟩
  rintro ⟨slice, hfold, hbeat⟩
  have hev : record [("kind", .str "llm_response"), ("meta", record [("beat", .str "b1")]),
      ("data", record [("content", .str "done")])] ∈ slice.filter (isOf (.str "b1")) := by
    rw [hbeat]
    exact List.mem_cons_self
  obtain ⟨messages, hmessages, hmem⟩ :=
    said_in_request hfold (List.mem_filter.mp hev).1 rfl
  have hrequest : messages = [Shell.userMessage (.str "task"), Shell.userMessage (.str "summary")] :=
    (Lua.table.inj hmessages).1.symm
  rw [hrequest] at hmem
  have hrole : ∀ content, Shell.assistantMessage (.str "done") ≠ Shell.userMessage content :=
    fun content h => absurd (Lua.str.inj (congrArg (Lua.get · "role") h)) (by decide)
  rcases List.mem_pair.mp hmem with h | h
  · exact hrole _ h
  · exact hrole _ h

end AgentBlock.Policy
