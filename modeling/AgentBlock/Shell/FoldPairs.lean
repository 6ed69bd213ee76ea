/-
AgentBlock/Shell/FoldPairs.lean

The default fold pairs tool calls.

Of any history the fold can read, every message and every recorded result is in
the request once and in order, and a message that calls tools is followed by one
with a result for each call (`Kept`).  Of what one handle writes, each call has
exactly one result there, and no result stands anywhere else (`Exact`).

Main results:

* `exact_of_written` — the results of what one handle wrote;
* `fold_pairs_iff` — the fold keeps both exactly where it can read every event;
* `a_block_without_fields_stops_the_fold` — a response it cannot read.
-/
import AgentBlock.Knl.Event
import AgentBlock.Shell.OneHandle

namespace AgentBlock.Shell

open Lua (record array)

/-! ### Logs of one handle, folded -/

section

variable {encode : Lua → Except Lua String} {events : List Lua}

/-- The turn a message starts has the results recorded before the next one. -/
theorem turns_until (h : ∀ ev ∈ events, Readable encode ev) (t : Turn) :
    ∃ rs more, turns t (hearing encode events) = { t with results := t.results ++ rs } :: more ∧
      List.Forall₂ (Renders encode) (resultsUntilNext events) rs := by
  induction events generalizing t with
  | nil => exact ⟨[], [], by simp [hearing, turns], .nil⟩
  | cons ev rest ih =>
      have hev := h ev List.mem_cons_self
      have hrest := fun e he => h e (List.mem_cons_of_mem _ he)
      cases hheard : heard encode ev with
      | said message ids =>
          have hspoken : spokenOf ev = some message := by
            rw [@spokenOf_eq encode, hheard]
            rfl
          refine ⟨[], turns { message := some message, ids } (hearing encode rest), ?_, ?_⟩
          · simp [hearing, hheard, turns]
          · simp [resultsUntilNext, hspoken]
      | result id block =>
          have hspoken : spokenOf ev = none := by
            rw [@spokenOf_eq encode, hheard]
            rfl
          obtain ⟨hresult, hrenders⟩ := renders_heard hev hheard
          obtain ⟨rs, more, hturns, hall⟩ := ih hrest { t with results := t.results ++ [(id, block)] }
          refine ⟨(id, block) :: rs, more, ?_, ?_⟩
          · simp only [hearing, List.map_cons, hheard, turns] at hturns ⊢
            rw [hturns]
            simp
          · simp only [resultsUntilNext, List.takeWhile_cons, hspoken, Option.isNone_none, if_true,
              List.filterMap_cons, hresult]
            exact .cons hrenders hall
      | skipped =>
          have hspoken : spokenOf ev = none := by
            rw [@spokenOf_eq encode, hheard]
            rfl
          have hresult : resultOf ev = none := by
            apply @resultOf_eq_none encode
            rw [hheard]
            intro _ _ h
            cases h
          obtain ⟨rs, more, hturns, hall⟩ := ih hrest t
          refine ⟨rs, more, ?_, ?_⟩
          · simp only [hearing, List.map_cons, hheard, turns] at hturns ⊢
            exact hturns
          · simp only [resultsUntilNext, List.takeWhile_cons, hspoken, Option.isNone_none, if_true,
              List.filterMap_cons, hresult]
            exact hall

theorem isConversation_response {ev : Lua} (h : ev.get "kind" = .str "llm_response") :
    isConversation ev = true :=
  List.any_eq_true.mpr ⟨"llm_response", by simp [conversationKinds], isKind_iff.mpr h⟩

theorem isConversation_user {ev : Lua} (h : ev.get "kind" = .str "msg_user") :
    isConversation ev = true :=
  List.any_eq_true.mpr ⟨"msg_user", by simp [conversationKinds], isKind_iff.mpr h⟩

/-- The stretch an event of the conversation is in. -/
theorem WrittenByOne.stretch (h : WrittenByOne events) {ev : Lua} (hev : ev ∈ events)
    (hconv : isConversation ev = true) : ∃ evs, IsStretch evs ∧ ev ∈ evs := by
  obtain ⟨stretches, hevents, hall⟩ := h
  have hmem : ev ∈ stretches.flatten := hevents ▸ List.mem_filter.mpr ⟨hev, hconv⟩
  obtain ⟨evs, hevs, hin⟩ := List.mem_flatten.mp hmem
  exact ⟨evs, hall evs hevs, hin⟩

theorem WrittenByOne.distinct (h : WrittenByOne events) : DistinctIds events := by
  intro ev hev hkind
  obtain ⟨evs, hstretch, hin⟩ := h.stretch hev (isConversation_response (isKind_iff.mp hkind))
  rcases hstretch with ⟨x, hx, hpre⟩ | ⟨id, full, -, hids, hpre⟩
  · cases List.mem_singleton.mp (hpre.subset hin)
    have := isKind_iff.mp hx.1
    rw [isKind_iff.mp hkind] at this
    simp at this
  · exact hids ev (hpre.subset hin) hkind

theorem not_user_of_beatRecord {id ev : Lua} {full : List Lua} (h : BeatRecord id full)
    (hev : ev ∈ full) : ev.get "kind" ≠ .str "msg_user" := by
  have hpairs {uses evs : List Lua} (hp : Pairs id uses evs) (hmem : ev ∈ evs) :
      ev.get "kind" ≠ .str "msg_user" := by
    induction hp with
    | nil => cases hmem
    | cons hc hr _ ih =>
        rcases List.mem_cons.mp hmem with rfl | hmem
        · rw [hc.kind]
          simp
        rcases List.mem_cons.mp hmem with rfl | hmem
        · rw [hr.kind]
          simp
        · exact ih hmem
  cases h with
  | failed hq he =>
      rcases List.mem_cons.mp hev with rfl | hev
      · rw [hq.kind]
        simp
      · cases List.mem_singleton.mp hev
        rw [he.kind]
        simp
  | answered hq he hp =>
      rcases List.mem_cons.mp hev with rfl | hev
      · rw [hq.kind]
        simp
      rcases List.mem_cons.mp hev with rfl | hev
      · rw [he.kind]
        simp
      · exact hpairs hp hev

theorem WrittenByOne.user (h : WrittenByOne events) {ev : Lua} (hev : ev ∈ events)
    (hkind : isKind "msg_user" ev = true) : IsUserMessage ev := by
  obtain ⟨evs, hstretch, hin⟩ := h.stretch hev (isConversation_user (isKind_iff.mp hkind))
  rcases hstretch with ⟨x, hx, hpre⟩ | ⟨id, full, hfull, -, hpre⟩
  · cases List.mem_singleton.mp (hpre.subset hin)
    exact hx
  · exact absurd (isKind_iff.mp hkind) (not_user_of_beatRecord hfull (hpre.subset hin))

/-- The ids under which results are recorded can be found again. -/
def KnownIds (events : List Lua) : Prop :=
  ∀ ev ∈ events, isKind "tool_result" ev = true → IsKnown ((dataOf ev).get "call_id")

/-- A turn of a log of one handle. -/
structure Turn.Written (t : Turn) : Prop extends t.Proper where
  own : t.Own
  distinct : t.Distinct
  user : ∀ message, t.message = some message → message.get "role" = .str "user" →
    ∀ block ∈ blocksOf (message.get "content"), block.get "type" ≠ .str "tool_result"

theorem turnsOf_written (h : ∀ ev ∈ events, Readable encode ev) (hw : WrittenByOne events) :
    ∀ t ∈ turnsOf encode events, t.Written := by
  have hown : ∀ t ∈ turnsOf encode events, t.Own := by
    obtain ⟨stretches, hevents, hall⟩ := hw
    rw [turnsOf, ← turns_conversation, hevents]
    exact turns_own hall {} List.nil_prefix
  have hdistinct : ∀ t ∈ turnsOf encode events, t.Distinct := by
    apply turns_all
    · exact List.Pairwise.nil
    · intro message ids hm
      obtain ⟨ev, hev, hheard⟩ := List.mem_map.mp hm
      show ids.Pairwise _
      by_cases huser : isKind "msg_user" ev = true
      · rw [heard_user huser] at hheard
        cases hheard
        exact List.Pairwise.nil
      by_cases hresponse : isKind "llm_response" ev = true
      · have hids := hw.distinct ev hev hresponse
        rw [heard_response (isKind_iff.mp hresponse)] at hheard
        cases hheard
        exact hids
      · simp only [heard, huser, hresponse, Bool.false_eq_true, if_false] at hheard
        split at hheard <;> cases hheard
    · exact fun u id block _ hu => hu
  -- no turn of a user holds a result, since none was appended with one
  have huser : ∀ t ∈ turnsOf encode events, ∀ message, t.message = some message →
      message.get "role" = .str "user" → ∀ block ∈ blocksOf (message.get "content"),
      block.get "type" ≠ .str "tool_result" := by
    apply turns_all
    · intro message hm
      cases hm
    · intro message ids hm m hmessage hrole
      cases hmessage
      obtain ⟨ev, hev, hheard⟩ := List.mem_map.mp hm
      by_cases huser : isKind "msg_user" ev = true
      · have hclean := (hw.user hev huser).2
        rw [heard_user huser] at hheard
        cases hheard
        rw [content_userMessage]
        exact hclean
      by_cases hresponse : isKind "llm_response" ev = true
      · rw [heard_response (isKind_iff.mp hresponse)] at hheard
        cases hheard
        simp at hrole
      · simp only [heard, huser, hresponse, Bool.false_eq_true, if_false] at hheard
        split at hheard <;> cases hheard
    · exact fun u id block _ hu => hu
  exact fun t ht => ⟨turnsOf_proper h t ht, hown t ht, hdistinct t ht, huser t ht⟩

theorem turnsOf_known (hknown : KnownIds events) :
    ∀ t ∈ turnsOf encode events, ∀ r ∈ t.results, IsKnown r.1 := by
  apply turns_all
  · exact fun r hr => nomatch hr
  · exact fun message ids _ r hr => nomatch hr
  · intro t id block hm ht r hr
    rcases List.mem_append.mp hr with hr | hr
    · exact ht r hr
    · cases List.mem_singleton.mp hr
      obtain ⟨ev, hev, hheard⟩ := List.mem_map.mp hm
      have hkind : isKind "tool_result" ev = true := by
        by_contra hk
        simp only [heard, hk, if_false] at hheard
        split at hheard
        · cases hheard
        split at hheard <;> cases hheard
      have hid := hknown ev hev hkind
      rw [heard_result (isKind_iff.mp hkind)] at hheard
      cases hheard
      exact hid

end

section

variable {encode : Lua → Except Lua String} {events : List Lua}

/-- Where a message stands in the fold of a history: in which turn, and whether
it is what that turn says or its results. -/
theorem stands {before after : List Lua} {message : Lua}
    (h : (turnsOf encode events).flatMap Turn.messages = before ++ message :: after) :
    ∃ t ∈ turnsOf encode events, ∃ earlier later : List Lua,
      (before = earlier ∧ t.message = some message ∧ after = t.answers ++ later) ∨
      (before = earlier ++ t.message.toList ∧ message = userMessage (array t.blocks) ∧
        t.blocks ≠ []) := by
  obtain ⟨l₁, t, l₂, x, y, hturns, ht, rfl, rfl⟩ := exists_of_flatMap_eq h
  refine ⟨t, by rw [hturns]; simp, l₁.flatMap Turn.messages, l₂.flatMap Turn.messages, ?_⟩
  rcases Turn.messages_split ht with ⟨rfl, hmessage, rfl⟩ | ⟨rfl, hmessage, rfl⟩
  · exact .inl ⟨by simp, hmessage, rfl⟩
  · refine .inr ⟨rfl, hmessage, fun hnil => ?_⟩
    have hlen := congrArg List.length ht
    simp [Turn.messages, Turn.answers, hnil] at hlen

theorem Turn.Proper.assistant {t : Turn} (h : t.Proper) {id : Lua} (hid : id ∈ t.ids) :
    ∃ content, t.message = some (assistantMessage content) ∧ t.ids = callIds content := by
  rcases h.said with ⟨-, hids⟩ | ⟨message, hmessage, hsaid⟩
  · rw [hids] at hid
    cases hid
  · generalize t.ids = ids at hsaid hid
    cases hsaid with
    | user content => cases hid
    | assistant content => exact ⟨content, hmessage, rfl⟩

/-- A result among the blocks of a turn is of a call its message makes. -/
theorem Turn.Written.called {t : Turn} (h : t.Written) {block : Lua} (hblock : block ∈ t.blocks) :
    ∃ call use, t.message = some call ∧ call.get "role" = .str "assistant" ∧
      use ∈ blocksOf (call.get "content") ∧ isToolUse use = true ∧
      use.get "id" = block.get "tool_use_id" := by
  have huse (id : Lua) (hid : id ∈ usesOf t.message) : ∃ call use, t.message = some call ∧
      call.get "role" = .str "assistant" ∧ use ∈ blocksOf (call.get "content") ∧
      isToolUse use = true ∧ use.get "id" = id := by
    cases hmessage : t.message with
    | none =>
        rw [hmessage] at hid
        cases hid
    | some call =>
        rw [hmessage, usesOf] at hid
        split at hid
        · rename_i hrole
          obtain ⟨use, hmem, rfl⟩ := List.mem_map.mp hid
          obtain ⟨hmem, htype⟩ := List.mem_filter.mp hmem
          exact ⟨call, use, rfl, Lua.eq_str.mp hrole, hmem, htype, rfl⟩
        · cases hid
  rcases List.mem_append.mp hblock with hblock | hblock
  · obtain ⟨r, hr, rfl⟩ := List.mem_map.mp hblock
    rw [(h.results r hr).id]
    exact huse r.1 (h.own.subset (List.mem_map_of_mem hr))
  · obtain ⟨id, hid, rfl⟩ := List.mem_map.mp hblock
    rw [(isResult_interruptedBlock id).id]
    have hmem := (List.mem_filter.mp hid).1
    rw [h.ids_eq] at hmem
    exact huse id (List.mem_filter.mp hmem).1

theorem exact_recorded (h : ∀ ev ∈ events, Readable encode ev) {before after : List Lua} {ev : Lua}
    (hsplit : events = before ++ ev :: after) (hkind : isKind "llm_response" ev = true)
    (hw : ∀ t ∈ turnsOf encode events, t.Written) :
    ∃ earlier later, foldMessages encode before = .ok earlier ∧
      (turnsOf encode events).flatMap Turn.messages =
        earlier ++ assistantMessage ((dataOf ev).get "content") :: later ∧
      ∀ id ∈ callIds ((dataOf ev).get "content"), ∃ blocks rest,
        later = userMessage (array blocks) :: rest ∧
        (∀ data ∈ resultsUntilNext after, SameId (data.get "call_id") id →
          ∃ block ∈ blocks, toolResultBlock encode data = .ok block) ∧
        ((∀ data ∈ resultsUntilNext after, ¬SameId (data.get "call_id") id) →
          interruptedBlock id ∈ blocks) := by
  subst hsplit
  have hafter : ∀ e ∈ after, Readable encode e := fun e he => h e (by simp [he])
  obtain ⟨rs, more, hturns, hrs⟩ := turns_until hafter
    { message := some (assistantMessage ((dataOf ev).get "content"))
      ids := callIds ((dataOf ev).get "content") }
  let t : Turn := {
    message := some (assistantMessage ((dataOf ev).get "content"))
    ids := callIds ((dataOf ev).get "content")
    results := rs }
  -- the response begins a turn, and the results up to the next one are its own
  have hall : turnsOf encode (before ++ ev :: after) = turnsOf encode before ++ t :: more := by
    have hheard : heard encode ev = _ := heard_response (isKind_iff.mp hkind)
    simp only [turnsOf, hearing, List.map_append, List.map_cons, hheard, turns_said] at hturns ⊢
    rw [hturns]
    simp [t]
  have ht : t ∈ turnsOf encode (before ++ ev :: after) := by rw [hall]; simp
  refine ⟨_, t.answers ++ more.flatMap Turn.messages,
    foldMessages_eq fun e he => h e (by simp [he]), ?_, ?_⟩
  · rw [hall]
    simp [Turn.messages, t]
  · intro id hid
    have hid' : id ∈ t.ids := hid
    obtain ⟨block, hblock, -⟩ := (hw t ht).answered hid'
    refine ⟨t.blocks, more.flatMap Turn.messages, by rw [Turn.answers_of_mem hblock]; rfl, ?_, ?_⟩
    · intro data hdata _
      obtain ⟨r, hr, hrenders⟩ := exists_right_of_forall₂ hrs hdata
      exact ⟨r.2, List.mem_append_left _ (List.mem_map_of_mem hr), hrenders.2⟩
    · intro hnone
      refine List.mem_append_right _ (List.mem_map_of_mem (List.mem_filter.mpr ⟨hid', ?_⟩))
      simp only [Bool.not_eq_true', List.any_eq_false]
      intro r hr heq
      obtain ⟨data, hdata, hrenders⟩ := exists_right_of_forall₂ hrs.flip hr
      exact hnone data hdata (.inr (hrenders.1 ▸ heq))

/-- **One result a call, and no other.** -/
theorem exact_of_written (h : ∀ ev ∈ events, Readable encode ev) (hwritten : WrittenByOne events)
    (hids : KnownIds events) :
    Exact encode events ((turnsOf encode events).flatMap Turn.messages) := by
  have hw := turnsOf_written h hwritten
  have hknown : ∀ t ∈ turnsOf encode events, ∀ r ∈ t.results, IsKnown r.1 := turnsOf_known hids
  constructor
  · intro before message after hsplit hrole id hid
    obtain ⟨t, ht, earlier, later, ⟨rfl, hmessage, rfl⟩ | ⟨-, rfl, -⟩⟩ := stands hsplit
    · have hids : t.ids = callIds (message.get "content") := by
        rcases (hw t ht).said with ⟨hnone, -⟩ | ⟨m, hm, hsaid⟩
        · rw [hnone] at hmessage
          cases hmessage
        · rw [hm] at hmessage
          cases hmessage
          exact hsaid.of_assistant hrole
      rw [← hids] at hid
      obtain ⟨block, hblock, -⟩ := (hw t ht).answered hid
      refine ⟨t.blocks, later, by rw [Turn.answers_of_mem hblock]; rfl, ?_⟩
      exact Turn.exactlyOne_blocks (hw t ht).toProper (hw t ht).own (hw t ht).distinct
        (hknown t ht) hid
    · simp at hrole
  · exact fun before ev after hsplit hkind => exact_recorded h hsplit hkind hw
  · intro before message after hsplit hrole block hblock htype
    obtain ⟨t, ht, earlier, later, ⟨-, hmessage, -⟩ | ⟨rfl, rfl, -⟩⟩ := stands hsplit
    · exact absurd htype ((hw t ht).user message hmessage hrole block hblock)
    · rw [content_userMessage] at hblock
      obtain ⟨call, use, hmessage, hcall, huse, htool, hid⟩ := (hw t ht).called hblock
      exact ⟨earlier, call, by rw [hmessage]; rfl, hcall, use, huse, htool, .inl hid⟩

/-- A result under an id that no read finds stands beside one that says the call
was interrupted. -/
theorem known_of_exact (h : ∀ ev ∈ events, Readable encode ev) (hwritten : WrittenByOne events)
    (hexact : Exact encode events ((turnsOf encode events).flatMap Turn.messages)) :
    KnownIds events := by
  intro ev hev hkind
  by_contra hnot
  have hnot' : ((dataOf ev).get "call_id").isNil = false ∧
      ((dataOf ev).get "call_id").eq ((dataOf ev).get "call_id") = false := by
    simpa [IsKnown] using hnot
  have hheard : heard encode ev = _ := heard_result (isKind_iff.mp hkind)
  have hmem : ((dataOf ev).get "call_id", resultBlock encode (dataOf ev)) ∈
      (turnsOf encode events).flatMap Turn.results := by
    rw [turnsOf, results_turns]
    refine List.mem_append_right _ (List.mem_filterMap.mpr ⟨heard encode ev, ?_, ?_⟩)
    · exact List.mem_map_of_mem hev
    · rw [hheard]
      rfl
  generalize (dataOf ev).get "call_id" = id at hnot' hmem
  obtain ⟨t, ht, hr⟩ := List.mem_flatMap.mp hmem
  have hw := turnsOf_written h hwritten t ht
  have hid := hw.own.mem_ids hw.toProper hr hnot'.1
  obtain ⟨content, hmessage, hids⟩ := hw.assistant hid
  obtain ⟨l₁, l₂, hturns⟩ := List.append_of_mem ht
  -- an id that is not equal to itself is found by no search, so it counts as unanswered
  have hinterrupted : id ∈ t.unanswered := by
    refine List.mem_filter.mpr ⟨hid, ?_⟩
    simp only [Bool.not_eq_true', List.any_eq_false]
    intro r _ heq
    rw [not_eq_of_not_self hnot'.2] at heq
    cases heq
  have hresult := hw.results _ hr
  have hblock : resultBlock encode (dataOf ev) ∈ t.results.map Prod.snd := List.mem_map_of_mem hr
  obtain ⟨blocks, rest, hafter, hone⟩ := hexact.once (l₁.flatMap Turn.messages)
    (assistantMessage content) (t.answers ++ l₂.flatMap Turn.messages)
    (by rw [hturns]; simp [Turn.messages, hmessage]) (role_assistantMessage content) id
    (by rw [content_assistantMessage, ← hids]; exact hid)
  rw [Turn.answers_of_mem (List.mem_append_left _ hblock)] at hafter
  have hblocks : array t.blocks = array blocks := by
    have := congrArg (fun m => m.get "content") (List.cons_eq_cons.mp hafter).1
    simpa using this
  cases hblocks
  exact not_exactlyOne_append hblock (List.mem_map_of_mem hinterrupted)
    ⟨hresult.type, .inl hresult.id⟩
    ⟨(isResult_interruptedBlock id).type, .inl (isResult_interruptedBlock id).id⟩ hone

end

/-- **The default fold pairs tool calls** exactly where it can read each event
and, in what one handle wrote, finds each recorded result again by its id. -/
theorem fold_pairs_iff (encode : Lua → Except Lua String) (events : List Lua) (device : Device) :
    (∃ request messages, fold encode (array events) device = .ok request ∧
      request.get "messages" = array messages ∧ Kept encode events messages ∧
      ∀ log, WrittenByOne log → events <+: log → Exact encode events messages) ↔
    (∀ ev ∈ events, Readable encode ev) ∧
      ∀ log, WrittenByOne log → events <+: log → KnownIds events := by
  constructor
  · rintro ⟨request, messages, hrequest, hget, -, hexact⟩
    obtain ⟨hread, rfl⟩ := fold_array_ok.mp hrequest
    rw [requestOf_messages] at hget
    cases hget
    exact ⟨hread, fun log hlog hpre =>
      known_of_exact hread (hlog.cut hpre) (hexact log hlog hpre)⟩
  · rintro ⟨hread, hknown⟩
    exact ⟨_, _, fold_array_ok.mpr ⟨hread, rfl⟩, requestOf_messages _, kept_of_readable hread,
      fun log hlog hpre => exact_of_written hread (hlog.cut hpre) (hknown log hlog hpre)⟩

/-- A stored response whose content is an array of one number. -/
def numberResponse : Lua :=
  record [("kind", .str "llm_response"), ("data", record [("content", array [.num (.int 5)])])]

/-- A stored response with a number among its blocks is an event the kernel
accepts, and no request comes of any history it is in. -/
theorem a_block_without_fields_stops_the_fold :
    Knl.validateEvent [("kind", .str "llm_response"),
        ("data", .obj [("content", .arr [.num (.int 5)])])] = .ok () ∧
      ∀ (encode : Lua → Except Lua String) (device : Device),
        ¬ ∃ request messages, fold encode (array [numberResponse]) device = .ok request ∧
          request.get "messages" = array messages ∧ Kept encode [numberResponse] messages ∧
          ∀ log, WrittenByOne log → [numberResponse] <+: log →
            Exact encode [numberResponse] messages := by
  refine ⟨rfl, fun encode device => ?_⟩
  rintro ⟨request, messages, hrequest, -⟩
  have hraised : fold encode (array [numberResponse]) device =
      .error (.str "attempt to index a number value") := rfl
  rw [hraised] at hrequest
  cases hrequest

end AgentBlock.Shell
