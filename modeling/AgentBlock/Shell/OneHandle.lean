/-
AgentBlock/Shell/OneHandle.lean

The logs one handle writes, user messages and beats in any order and cut
anywhere, and what their turns look like: the results of a turn are those of the
calls its message makes, in order.

Main results:

* `WrittenByOne.cut` — a log that was cut is such a log;
* `turns_own` — each turn has the results of its own calls;
* `Turn.exactlyOne_blocks` — and with them just one result for each.
-/
import AgentBlock.Shell.FoldKept
import AgentBlock.Shell.Trace
import Mathlib.Data.List.Pairwise

namespace AgentBlock.Shell

open Lua (record array)

/-! ### Logs of one handle -/

def conversationKinds : List String :=
  ["msg_user", "llm_request", "llm_response", "llm_call_failed", "tool_call", "tool_result"]

def isConversation (ev : Lua) : Bool := conversationKinds.any fun kind => isKind kind ev

/-- What a user says; results are not the user's to give. -/
def IsUserMessage (ev : Lua) : Prop :=
  isKind "msg_user" ev = true ∧
    ∀ block ∈ blocksOf ((dataOf ev).get "content"), block.get "type" ≠ .str "tool_result"

/-- The ids a record calls tools under are distinct. -/
def DistinctIds (evs : List Lua) : Prop :=
  ∀ ev ∈ evs, isKind "llm_response" ev = true →
    (callIds ((dataOf ev).get "content")).Pairwise fun a b => ¬SameId a b

/-- What one handle writes before it turns to something else: a user message, or
as much of a beat's record as the beat came to. -/
def IsStretch (evs : List Lua) : Prop :=
  (∃ ev, IsUserMessage ev ∧ evs <+: [ev]) ∨
    ∃ id full, BeatRecord id full ∧ DistinctIds full ∧ evs <+: full

/-- A log one handle wrote; what is no part of the conversation may stand
anywhere in it. -/
def WrittenByOne (log : List Lua) : Prop :=
  ∃ stretches : List (List Lua), log.filter isConversation = stretches.flatten ∧
    ∀ evs ∈ stretches, IsStretch evs

/-- Just one of the elements is so. -/
def ExactlyOne {α : Type} (p : α → Prop) (l : List α) : Prop :=
  ∃ before a after, l = before ++ a :: after ∧ p a ∧ ∀ other ∈ before ++ after, ¬p other

/-- The results recorded before the next message. -/
def resultsUntilNext (events : List Lua) : List Lua :=
  (events.takeWhile fun ev => (spokenOf ev).isNone).filterMap resultOf

/-- The results in the messages are those of the calls just before, one each: the
recorded one if there is one, and else the one that says it was interrupted. -/
structure Exact (encode : Lua → Except Lua String) (events messages : List Lua) : Prop where
  once : ∀ before message after, messages = before ++ message :: after →
    message.get "role" = .str "assistant" → ∀ id ∈ callIds (message.get "content"),
    ∃ blocks rest, after = userMessage (array blocks) :: rest ∧ ExactlyOne (Answers id) blocks
  recorded : ∀ before ev after, events = before ++ ev :: after → isKind "llm_response" ev = true →
    ∃ earlier later, foldMessages encode before = .ok earlier ∧
      messages = earlier ++ assistantMessage ((dataOf ev).get "content") :: later ∧
      ∀ id ∈ callIds ((dataOf ev).get "content"), ∃ blocks rest,
        later = userMessage (array blocks) :: rest ∧
        (∀ data ∈ resultsUntilNext after, SameId (data.get "call_id") id →
          ∃ block ∈ blocks, toolResultBlock encode data = .ok block) ∧
        ((∀ data ∈ resultsUntilNext after, ¬SameId (data.get "call_id") id) →
          interruptedBlock id ∈ blocks)
  own : ∀ before message after, messages = before ++ message :: after →
    message.get "role" = .str "user" → ∀ block ∈ blocksOf (message.get "content"),
    block.get "type" = .str "tool_result" →
    ∃ earlier call, before = earlier ++ [call] ∧ call.get "role" = .str "assistant" ∧
      ∃ use ∈ blocksOf (call.get "content"), isToolUse use = true ∧
        SameId (use.get "id") (block.get "tool_use_id")

/-! ### What one handle wrote -/

theorem exists_of_prefix_flatten {α : Type} {p : List α} {ls : List (List α)}
    (h : p <+: ls.flatten) :
    ∃ ls' : List (List α), p = ls'.flatten ∧ ∀ l' ∈ ls', ∃ l ∈ ls, l' <+: l := by
  induction ls generalizing p with
  | nil => exact ⟨[], List.prefix_nil.mp h, nofun⟩
  | cons l rest ih =>
      obtain ⟨q, hq⟩ := h
      rw [List.flatten_cons, List.append_eq_append_iff] at hq
      rcases hq with ⟨c, hl, -⟩ | ⟨c, rfl, hc⟩
      · refine ⟨[p], by simp, fun l' hl' => ⟨l, List.mem_cons_self, ?_⟩⟩
        cases List.mem_singleton.mp hl'
        exact ⟨c, hl.symm⟩
      · obtain ⟨ls', rfl, hls'⟩ := ih ⟨q, hc.symm⟩
        refine ⟨l :: ls', rfl, fun l' hl' => ?_⟩
        rcases List.mem_cons.mp hl' with rfl | hl'
        · exact ⟨l', List.mem_cons_self, List.prefix_refl _⟩
        · obtain ⟨m, hm, hp⟩ := hls' l' hl'
          exact ⟨m, List.mem_cons_of_mem _ hm, hp⟩

theorem IsStretch.cut {evs evs' : List Lua} (h : IsStretch evs) (hp : evs' <+: evs) :
    IsStretch evs' := by
  rcases h with ⟨ev, hev, hpre⟩ | ⟨id, full, hfull, hids, hpre⟩
  · exact .inl ⟨ev, hev, hp.trans hpre⟩
  · exact .inr ⟨id, full, hfull, hids, hp.trans hpre⟩

/-- What was there when a log was cut is a log of the same handle. -/
theorem WrittenByOne.cut {log events : List Lua} (h : WrittenByOne log) (hp : events <+: log) :
    WrittenByOne events := by
  obtain ⟨stretches, hlog, hall⟩ := h
  obtain ⟨stretches', hevents, hall'⟩ :=
    exists_of_prefix_flatten (hlog ▸ hp.filter isConversation)
  refine ⟨stretches', hevents, fun evs hevs => ?_⟩
  obtain ⟨whole, hwhole, hpre⟩ := hall' evs hevs
  exact (hall whole hwhole).cut hpre

/-- The ids of the blocks a content calls tools by; some may have none. -/
def useIds (content : Lua) : List Lua :=
  ((blocksOf content).filter isToolUse).map fun block => block.get "id"

theorem callIds_eq (content : Lua) : callIds content = (useIds content).filter fun id => !id.isNil := by
  simp only [callIds, useIds]
  induction blocksOf content with
  | nil => rfl
  | cons block rest ih =>
      by_cases htype : isToolUse block = true
      · have hid : callIdOf block = block.get "id" := by rw [callIdOf]; exact if_pos htype
        simp only [List.map_cons, List.filter_cons, htype, if_true, hid, ih]
      · have hid : callIdOf block = .nil := by rw [callIdOf]; exact if_neg htype
        simp only [List.map_cons, List.filter_cons, htype, hid, ih, Bool.false_eq_true, if_false]
        rfl

/-- The ids a message calls tools by. -/
def usesOf : Option Lua → List Lua
  | some message =>
      if (message.get "role").eq (.str "assistant") then useIds (message.get "content") else []
  | none => []

/-- The results of the turn are those of its calls, in their order. -/
def Turn.Own (t : Turn) : Prop := t.results.map Prod.fst <+: usesOf t.message

theorem get_dataOf (ev : Lua) (key : String) : (dataOf ev).get key = (ev.get "data").get key := by
  rw [dataOf]
  cases ev.get "data" <;> rfl

section

variable {encode : Lua → Except Lua String}

theorem heard_of_not_isConversation {ev : Lua} (h : isConversation ev = false) :
    heard encode ev = .skipped := by
  have hkinds := List.any_eq_false.mp h
  have huser := hkinds "msg_user" (by simp [conversationKinds])
  have hresponse := hkinds "llm_response" (by simp [conversationKinds])
  have hresult := hkinds "tool_result" (by simp [conversationKinds])
  simp only [heard, huser, hresponse, hresult, Bool.false_eq_true, if_false]

theorem turns_conversation (t : Turn) (events : List Lua) :
    turns t (hearing encode (events.filter isConversation)) = turns t (hearing encode events) := by
  induction events generalizing t with
  | nil => rfl
  | cons ev rest ih =>
      by_cases hev : isConversation ev = true
      · rw [List.filter_cons_of_pos hev]
        simp only [hearing, List.map_cons] at ih ⊢
        cases heard encode ev <;> simp only [turns, ih]
      · have hskip : heard encode ev = .skipped :=
          heard_of_not_isConversation (Bool.eq_false_of_not_eq_true hev)
        rw [List.filter_cons_of_neg hev]
        simp only [hearing, List.map_cons, hskip, turns] at ih ⊢
        exact ih t

/-- The calls and results of a beat put results under its calls, in order. -/
theorem turns_pairs {id : Lua} {uses evs s : List Lua} (h : Pairs id uses evs) (hs : s <+: evs) :
    ∃ rs : List (Lua × Lua), rs.map Prod.fst <+: uses.map (fun block => block.get "id") ∧
      ∀ (t : Turn) (rest : List Heard),
        turns t (hearing encode s ++ rest) = turns { t with results := t.results ++ rs } rest := by
  induction h generalizing s with
  | nil =>
      rw [List.prefix_nil.mp hs]
      exact ⟨[], List.nil_prefix, fun t rest => by simp [hearing]⟩
  | @cons block c r blocks evs hc hr _ ih =>
      have hskip : heard encode c = .skipped := heard_of_kind hc.kind (by simp) (by simp) (by simp)
      have hresult : heard encode r = _ := heard_result hr.kind
      rcases s with - | ⟨x, - | ⟨y, s⟩⟩
      · exact ⟨[], List.nil_prefix, fun t rest => by simp [hearing]⟩
      · rw [List.cons_prefix_cons] at hs
        obtain ⟨rfl, -⟩ := hs
        exact ⟨[], List.nil_prefix, fun t rest => by simp [hearing, hskip, turns]⟩
      · rw [List.cons_prefix_cons, List.cons_prefix_cons] at hs
        obtain ⟨rfl, rfl, hrest⟩ := hs
        obtain ⟨rs, hrs, hturns⟩ := ih hrest
        refine ⟨(block.get "id", resultBlock encode (dataOf y)) :: rs, ?_, fun t rest => ?_⟩
        · rw [List.map_cons, List.map_cons, List.cons_prefix_cons]
          exact ⟨rfl, hrs⟩
        · rw [get_dataOf, hr.callId] at hresult
          have := hturns
            { t with results := t.results ++ [(block.get "id", resultBlock encode (dataOf y))] } rest
          simp only [hearing, List.map_cons, hskip, hresult, List.cons_append, turns] at this ⊢
          rw [this]
          simp

theorem toolUses_eq (resp : Lua) : toolUses resp = (blocksOf (resp.get "content")).filter isToolUse := by
  rw [toolUses]
  cases resp.get "content" <;> rfl

/-- A stretch leaves the turns before it as they are, and begins at most one. -/
theorem turns_stretch {evs : List Lua} (h : IsStretch evs) (t : Turn) (ht : t.Own)
    (rest : List Heard) :
    ∃ (done : List Turn) (t' : Turn), (∀ u ∈ done, u.Own) ∧ t'.Own ∧
      turns t (hearing encode evs ++ rest) = done ++ turns t' rest := by
  rcases h with ⟨ev, hev, hpre⟩ | ⟨id, full, hfull, -, hpre⟩
  · rcases evs with - | ⟨x, xs⟩
    · exact ⟨[], t, by simp, ht, rfl⟩
    · rw [List.cons_prefix_cons, List.prefix_nil] at hpre
      obtain ⟨rfl, rfl⟩ := hpre
      refine ⟨[t], { message := some (userMessage ((dataOf x).get "content")) }, ?_, ?_, ?_⟩
      · intro u hu
        cases List.mem_singleton.mp hu
        exact ht
      · exact List.nil_prefix
      · simp only [hearing, List.map_cons, List.map_nil, heard_user hev.1, List.cons_append,
          List.nil_append, turns]
  · cases hfull with
    | @failed request q e hq he =>
        -- a failed call is not heard, wherever its log breaks off
        have hskip (x : Lua) (hx : x ∈ evs) : heard encode x = .skipped := by
          rcases List.mem_cons.mp (hpre.subset hx) with rfl | hx
          · exact heard_of_kind hq.kind (by simp) (by simp) (by simp)
          · cases List.mem_singleton.mp hx
            exact heard_of_kind he.kind (by simp) (by simp) (by simp)
        refine ⟨[], t, by simp, ht, ?_⟩
        clear hpre
        induction evs with
        | nil => rfl
        | cons x xs ih =>
            simp only [hearing, List.map_cons, hskip x List.mem_cons_self, List.cons_append, turns]
            exact ih fun y hy => hskip y (List.mem_cons_of_mem _ hy)
    | @answered request resp q e pairs hq he hpairs =>
        have hskip : heard encode q = .skipped := heard_of_kind hq.kind (by simp) (by simp) (by simp)
        rcases evs with - | ⟨x, - | ⟨y, s⟩⟩
        · exact ⟨[], t, by simp, ht, rfl⟩
        · rw [List.cons_prefix_cons] at hpre
          obtain ⟨rfl, -⟩ := hpre
          exact ⟨[], t, by simp, ht, by simp [hearing, hskip, turns]⟩
        · rw [List.cons_prefix_cons, List.cons_prefix_cons] at hpre
          obtain ⟨rfl, rfl, hs⟩ := hpre
          have hcontent : (dataOf y).get "content" = resp.get "content" := by
            rw [get_dataOf, he.content]
          -- the answer begins a turn, and what is there of its pairs belongs to it
          obtain ⟨rs, hrs, hturns⟩ := @turns_pairs encode _ _ _ _ hpairs hs
          refine ⟨[t], {
            message := some (assistantMessage ((dataOf y).get "content"))
            ids := callIds ((dataOf y).get "content")
            results := rs }, ?_, ?_, ?_⟩
          · intro u hu
            cases List.mem_singleton.mp hu
            exact ht
          · show rs.map Prod.fst <+: _
            simp only [usesOf, role_assistantMessage, Lua.eq, decide_true, if_true,
              content_assistantMessage, useIds, hcontent]
            rw [← toolUses_eq]
            exact hrs
          · have hthis := hturns {
              message := some (assistantMessage ((dataOf y).get "content"))
              ids := callIds ((dataOf y).get "content") } rest
            simp only [hearing, List.map_cons, hskip, heard_response he.kind, List.cons_append,
              turns, List.nil_append] at hthis ⊢
            rw [hthis]

/-- In a log of one handle, each turn has the results of its own calls. -/
theorem turns_own {stretches : List (List Lua)} (h : ∀ evs ∈ stretches, IsStretch evs) (t : Turn)
    (ht : t.Own) : ∀ u ∈ turns t (hearing encode stretches.flatten), u.Own := by
  induction stretches generalizing t with
  | nil =>
      intro u hu
      cases List.mem_singleton.mp hu
      exact ht
  | cons evs rest ih =>
      have heq : hearing encode (evs :: rest).flatten
          = hearing encode evs ++ hearing encode rest.flatten := by
        simp [hearing]
      obtain ⟨done, t', hdone, ht', hturns⟩ :=
        @turns_stretch encode _ (h evs List.mem_cons_self) t ht (hearing encode rest.flatten)
      rw [heq, hturns]
      intro u hu
      rcases List.mem_append.mp hu with hu | hu
      · exact hdone u hu
      · exact ih (fun e he => h e (List.mem_cons_of_mem _ he)) t' ht' u hu

end

/-! ### Exactly one -/

section

open Classical

theorem countP_of_exactlyOne {p : Lua → Prop} {blocks : List Lua} (h : ExactlyOne p blocks) :
    blocks.countP p = 1 := by
  obtain ⟨before, block, after, rfl, hblock, hothers⟩ := h
  have hzero (l : List Lua) (hl : ∀ other ∈ l, other ∈ before ++ after) : l.countP p = 0 := by
    apply List.countP_eq_zero.mpr
    intro other hmem
    simpa using hothers other (hl other hmem)
  rw [List.countP_append, List.countP_cons_of_pos (by simpa using hblock),
    hzero before fun o ho => List.mem_append_left _ ho,
    hzero after fun o ho => List.mem_append_right _ ho]

theorem not_exactlyOne_append {p : Lua → Prop} {l₁ l₂ : List Lua} {a b : Lua} (ha : a ∈ l₁)
    (hb : b ∈ l₂) (hpa : p a) (hpb : p b) : ¬ExactlyOne p (l₁ ++ l₂) := by
  intro h
  have hcount := countP_of_exactlyOne h
  rw [List.countP_append] at hcount
  have h₁ : 0 < l₁.countP p := List.countP_pos_iff.mpr ⟨a, ha, by simpa using hpa⟩
  have h₂ : 0 < l₂.countP p := List.countP_pos_iff.mpr ⟨b, hb, by simpa using hpb⟩
  omega

end

/-- Of results whose ids are told apart, one has this id. -/
theorem exactlyOne_of_pairwise {rs : List (Lua × Lua)} {id : Lua}
    (hresults : ∀ r ∈ rs, IsResult r.1 r.2)
    (hpair : rs.Pairwise fun r s => r.1.isNil = false → ¬SameId r.1 s.1)
    (hnamed : id.isNil = false) (hmem : ∃ r ∈ rs, r.1 = id)
    (hsame : ∀ r ∈ rs, SameId r.1 id → r.1 = id) : ExactlyOne (Answers id) (rs.map Prod.snd) := by
  obtain ⟨r, hr, rfl⟩ := hmem
  obtain ⟨before, after, rfl⟩ := List.append_of_mem hr
  have hresult := hresults r hr
  refine ⟨before.map Prod.snd, r.2, after.map Prod.snd, by simp,
    ⟨hresult.type, .inl hresult.id⟩, ?_⟩
  intro other hother hanswers
  rw [← List.map_append] at hother
  obtain ⟨s, hs, rfl⟩ := List.mem_map.mp hother
  have hmem : s ∈ before ++ r :: after := by
    rcases List.mem_append.mp hs with hs | hs <;> simp [hs]
  have hid : s.1 = r.1 := hsame s hmem ((hresults s hmem).id ▸ hanswers.2)
  rw [List.pairwise_append, List.pairwise_cons] at hpair
  rcases List.mem_append.mp hs with hs | hs
  · exact hpair.2.2 s hs r List.mem_cons_self (hid ▸ hnamed) (.inl hid)
  · exact hpair.2.1.1 s hs hnamed (.inl hid.symm)

theorem not_eq_of_not_self {id : Lua} (h : id.eq id = false) (a : Lua) : a.eq id = false := by
  cases id with
  | num n =>
      cases n with
      | nan =>
          cases a with
          | num m => cases m <;> rfl
          | _ => rfl
      | _ => simp [Lua.eq, LuaNumber.eq] at h
  | table items fields => cases a <;> rfl
  | other type => cases a <;> rfl
  | _ => simp [Lua.eq] at h

theorem SameId.named {a b : Lua} (h : SameId a b) (hb : b.isNil = false) : a.isNil = false := by
  cases a with
  | nil =>
      rcases h with rfl | h
      · exact hb
      · cases b <;> simp_all [Lua.eq]
  | _ => rfl

/-- A recorded result is under an id that a later read of it finds. -/
def IsKnown (id : Lua) : Prop := id.isNil = true ∨ id.eq id = true

namespace Turn

variable {t : Turn}

theorem Proper.ids_eq (h : t.Proper) :
    t.ids = (usesOf t.message).filter fun id => !id.isNil := by
  rcases h.said with ⟨hmessage, hids⟩ | ⟨message, hmessage, hsaid⟩
  · rw [hmessage, hids]
    rfl
  · rw [hmessage]
    generalize t.ids = ids at hsaid
    cases hsaid with
    | user content => simp [usesOf, Lua.eq]
    | assistant content =>
        simp only [usesOf, role_assistantMessage, Lua.eq, decide_true, if_true,
          content_assistantMessage, callIds_eq]

theorem Proper.named (h : t.Proper) : ∀ id ∈ t.ids, id.isNil = false := by
  intro id hid
  rw [h.ids_eq] at hid
  simpa using (List.mem_filter.mp hid).2

/-- The id of a recorded result is one of the turn's. -/
theorem Own.mem_ids (hown : t.Own) (h : t.Proper) {r : Lua × Lua} (hr : r ∈ t.results)
    (hnamed : r.1.isNil = false) : r.1 ∈ t.ids := by
  rw [h.ids_eq]
  exact List.mem_filter.mpr ⟨hown.subset (List.mem_map_of_mem hr), by simp [hnamed]⟩

/-- The ids of the turn are told apart. -/
def Distinct (t : Turn) : Prop := t.ids.Pairwise fun a b => ¬SameId a b

theorem Distinct.eq (h : t.Distinct) {a b : Lua} (ha : a ∈ t.ids) (hb : b ∈ t.ids)
    (hsame : SameId a b) : a = b := by
  by_contra hne
  have hsymm : Std.Symm fun a b : Lua => ¬SameId a b := by
    refine ⟨fun x y hxy hyx => hxy ?_⟩
    rcases hyx with rfl | hyx
    · exact .inl rfl
    · exact .inr (Lua.eq_symm _ _ ▸ hyx)
  exact List.Pairwise.forall h ha hb hne hsame

theorem results_pairwise (h : t.Proper) (hown : t.Own) (hdistinct : t.Distinct) :
    t.results.Pairwise fun r s => r.1.isNil = false → ¬SameId r.1 s.1 := by
  have huses : (usesOf t.message).Pairwise fun a b => a.isNil = false → ¬SameId a b := by
    have hfilter := hdistinct
    rw [Distinct, h.ids_eq, List.pairwise_filter] at hfilter
    apply hfilter.imp
    intro a b hab ha hsame
    have hb : b.isNil = false := by
      rcases hsame with rfl | heq
      · exact ha
      · exact SameId.named (.inr (Lua.eq_symm _ _ ▸ heq)) ha
    exact hab (by simp [ha]) (by simp [hb]) hsame
  have := huses.sublist hown.sublist
  exact List.pairwise_map.mp this

theorem exactlyOne_blocks (h : t.Proper) (hown : t.Own) (hdistinct : t.Distinct)
    (hknown : ∀ r ∈ t.results, IsKnown r.1) {id : Lua} (hid : id ∈ t.ids) :
    ExactlyOne (Answers id) t.blocks := by
  have hnamed := h.named id hid
  let rs := t.results ++ t.unanswered.map fun id => (id, interruptedBlock id)
  have hblocks : t.blocks = rs.map Prod.snd := by
    simp [rs, blocks, Function.comp_def]
  have hmem_ids (r : Lua × Lua) (hr : r ∈ rs) (hr' : r.1.isNil = false) : r.1 ∈ t.ids := by
    rcases List.mem_append.mp hr with hr | hr
    · exact hown.mem_ids h hr hr'
    · obtain ⟨u, hu, rfl⟩ := List.mem_map.mp hr
      exact (List.mem_filter.mp hu).1
  rw [hblocks]
  apply exactlyOne_of_pairwise
  · intro r hr
    rcases List.mem_append.mp hr with hr | hr
    · exact h.results r hr
    · obtain ⟨u, -, rfl⟩ := List.mem_map.mp hr
      exact isResult_interruptedBlock u
  · rw [List.pairwise_append]
    refine ⟨results_pairwise h hown hdistinct, ?_, ?_⟩
    · rw [List.pairwise_map]
      apply (List.Pairwise.sublist List.filter_sublist hdistinct).imp
      exact fun hab _ => hab
    · intro r hr s hs hr' hsame
      obtain ⟨u, hu, rfl⟩ := List.mem_map.mp hs
      -- an interrupted result stands only for a call that no recorded one answers
      have hfresh : r.1.eq u = false := by
        have := (List.mem_filter.mp hu).2
        simp only [Bool.not_eq_true', List.any_eq_false] at this
        exact Bool.eq_false_of_not_eq_true (this r hr)
      rcases hsame with heq | heq
      · rcases hknown r hr with hnil | hself
        · rw [hr'] at hnil
          cases hnil
        · have heq' : r.1 = u := heq
          rw [← heq', hself] at hfresh
          cases hfresh
      · rw [hfresh] at heq
        cases heq
  · exact hnamed
  · by_cases hany : t.results.any (fun r => r.1.eq id) = true
    · obtain ⟨r, hr, heq⟩ := List.any_eq_true.mp hany
      have hmem := hown.mem_ids h hr (SameId.named (.inr heq) hnamed)
      exact ⟨r, List.mem_append_left _ hr, hdistinct.eq hmem hid (.inr heq)⟩
    · exact ⟨(id, interruptedBlock id), List.mem_append_right _ (List.mem_map.mpr
        ⟨id, List.mem_filter.mpr ⟨hid, by simpa using hany⟩, rfl⟩), rfl⟩
  · intro r hr hsame
    exact hdistinct.eq (hmem_ids r hr (hsame.named hnamed)) hid hsame

end Turn

end AgentBlock.Shell
