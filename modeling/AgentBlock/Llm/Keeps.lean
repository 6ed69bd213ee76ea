/-
AgentBlock/Llm/Keeps.lean

The OpenAI rendering of a folded conversation, list by list.

What is sent of each kind is counted over the list: groups that render every
message send no fewer tool messages, user messages and calls than the code does,
and no more, so nothing is left out.

Main results:

* `keeps_iff` — of the messages of a fold, the rendering keeps the conversation
  exactly where the list is `Renderable`;
* `gives_back_iff` — and of a parsed answer it gives back what that says and
  calls exactly where the text is a text and the arguments survive the codec.
-/
import AgentBlock.Lib.Json
import AgentBlock.Llm.Rendered
import Mathlib.Data.List.Chain

namespace AgentBlock.Llm.Openai

open Except (bind_eq_ok)
open Shell (blocksOf callIds SameId ExactlyOne foldMessages)

/-! ### Nothing is left out -/

section

variable {host : Host} {messages : List Lua}

/-- A count of the messages sent, over what each message becomes. -/
structure Counts (count : List OaiMessage → Nat) : Prop where
  nil : count [] = 0
  append : ∀ a b, count (a ++ b) = count a + count b

theorem Counts.flatten {count : List OaiMessage → Nat} (h : Counts count)
    (groups : List (List OaiMessage)) : count groups.flatten = (groups.map count).sum := by
  induction groups with
  | nil => exact h.nil
  | cons group rest ih => rw [List.flatten_cons, h.append, ih]; rfl

theorem counts_countP (p : OaiMessage → Bool) : Counts (List.countP p) :=
  ⟨rfl, fun _ _ => List.countP_append⟩

theorem counts_calls : Counts fun group => (callsOfGroup group).length :=
  ⟨rfl, fun a b => by simp [callsOfGroup]⟩

/-- What is sent of each message, where other groups render the same list. -/
theorem counted {count : List OaiMessage → Nat} (hcount : Counts count) {sent : Lua → Nat}
    {groups : List (List OaiMessage)} (hflat : messages.flatMap (groupOf host) = groups.flatten)
    (hrenders : List.Forall₂ (Renders host) messages groups)
    (hsent : ∀ m ∈ messages, count (groupOf host m) = sent m)
    (hle : ∀ m ∈ messages, ∀ group, Renders host m group → sent m ≤ count group) :
    ∀ m ∈ messages, ∃ group, Renders host m group ∧ count group = sent m := by
  have hsum : (groups.map count).sum = (messages.map sent).sum := by
    rw [← hcount.flatten, ← hflat, List.flatMap, hcount.flatten, List.map_map]
    congr 1
    exact List.map_congr_left hsent
  intro m hm
  obtain ⟨group, -, hgroup⟩ := Shell.exists_right_of_forall₂ (forall₂_eq_of_sum hrenders hle hsum) hm
  exact ⟨group, hgroup⟩

/-- Where the rendering keeps what is said and called, and fills each message,
nothing is in the messages that it leaves out. -/
theorem whole_of_renders (hfold : Folded messages)
    (hconverted : ∀ m ∈ messages, Converted host m (groupOf host m))
    {groups : List (List OaiMessage)} (hflat : messages.flatMap (groupOf host) = groups.flatten)
    (hrenders : List.Forall₂ (Renders host) messages groups)
    (hfilled : ∀ m ∈ messages, ∀ o ∈ groupOf host m, o.role = .str "assistant" →
      o.content.isNil = false ∨ ∃ call calls, o.toolCalls = some (call :: calls)) :
    ∀ m ∈ messages, Whole host m := by
  have hcounts m (hm : m ∈ messages) :=
    (hconverted m hm).counts (hfold.content m hm) (hfold.role m hm)
  have htools := counted (counts_countP isTool) hflat hrenders (fun m hm => (hcounts m hm).1)
    fun m hm group hg => by
      rw [(hg.counts (hfold.role m hm)).1 (hfold.content m hm), toolsSent]
      split
      · exact Nat.le_refl _
      · exact Nat.zero_le _
  have husers := counted (counts_countP isUser) hflat hrenders (fun m hm => (hcounts m hm).2.1)
    fun m hm group hg => by
      rw [usersSent]
      split
      · rename_i hboth
        rw [(hg.counts (hfold.role m hm)).2.1 (Lua.eq_str.mp hboth.1)
          (List.isEmpty_iff.mp hboth.2)]
      · exact Nat.zero_le _
  have hcalls := counted counts_calls hflat hrenders (fun m hm => (hcounts m hm).2.2)
    fun m hm group hg => by
      rw [(hg.counts (hfold.role m hm)).2.2, callsSent]
      split
      · exact Nat.le_refl _
      · exact Nat.zero_le _
  intro m hm
  have hrole := hfold.role m hm
  have hcontent := hfold.content m hm
  obtain ⟨gu, hgu, hucount⟩ := husers m hm
  obtain ⟨gt, hgt, htcount⟩ := htools m hm
  obtain ⟨gc, hgc, hccount⟩ := hcalls m hm
  constructor
  · -- the fields of each block can be read
    intro block hblock
    rcases hcontent with ⟨s, hs⟩ | ⟨blocks, fields, hblocks, -⟩
    · rw [hs] at hblock
      cases hblock
    · rw [hblocks] at hblock
      obtain ⟨pieces, -, hsaid⟩ := hgu.said
      rw [hblocks] at hsaid
      have hread := (blocksSayings_spec hsaid).2.2 block hblock
      refine ⟨hread.1, hread.2, fun huse => ?_⟩
      have hmem : block ∈ usesOf (m.get "content") := by
        rw [hblocks]
        exact List.mem_filter.mpr ⟨hblock, huse⟩
      obtain ⟨call, -, -, ⟨name, hname, -⟩, hargs⟩ := Shell.exists_right_of_forall₂ hgu.called hmem
      exact ⟨by rw [hname]; rfl, ⟨_, hargs⟩⟩
  · intro huser
    constructor
    · have hzero : callsSent m = 0 := by simp [callsSent, huser, Lua.eq]
      rw [hzero, (hgc.counts hrole).2.2] at hccount
      exact List.length_eq_zero_iff.mp hccount
    · by_cases hnone : resultsOf (m.get "content") = []
      · exact .inl hnone
      · have hzero : usersSent m = 0 := by simp [usersSent, hnone]
        rw [hzero] at hucount
        rcases hcontent with ⟨s, hs⟩ | ⟨blocks, fields, hblocks, -⟩
        · rw [hs] at hnone
          exact absurd rfl hnone
        · obtain ⟨pieces, hpieces, hsaid⟩ := hgu.said
          have htexts := (countP_carried hrole hpieces).2 hucount huser
          rw [hblocks] at hsaid ⊢
          rw [(blocksSayings_spec hsaid).1] at htexts
          exact .inr (List.length_eq_zero_iff.mp htexts)
  · intro hassistant
    constructor
    · have hzero : toolsSent m = 0 := by simp [toolsSent, hassistant, Lua.eq]
      rw [hzero, (hgt.counts hrole).1 hcontent] at htcount
      exact List.length_eq_zero_iff.mp htcount
    · have hconv := hconverted m hm
      have hfill := hfilled m hm
      generalize groupOf host m = group at hconv hfill
      cases hconv with
      | said hs => exact .inl ⟨_, hs⟩
      | @assistant blocks fields o _ hblocks ho =>
          have htables := hcontent.tables hblocks
          obtain ⟨hr, hcalled, -, hnil⟩ := convertAssistant_ok htables ho
          rw [hblocks]
          rcases hfill o List.mem_cons_self hr with hsays | ⟨call, calls, hsome⟩
          · refine .inr (.inl fun hempty => ?_)
            rw [hnil.mpr hempty] at hsays
            cases hsays
          · refine .inr (.inr fun hempty => ?_)
            have hlen := hcalled.length_eq
            rw [show blocks.filter (isType "tool_use") = [] from hempty, hsome] at hlen
            simp at hlen
      | results huser _ _ =>
          rw [hassistant] at huser
          simp at huser
      | user huser _ _ _ =>
          rw [hassistant] at huser
          simp at huser

end

/-! ### Each call is answered once -/

theorem exactlyOne_iff {α : Type} {p : α → Prop} {l : List α} :
    ExactlyOne p l ↔ AtMostOne p l ∧ ∃ a ∈ l, p a := by
  constructor
  · rintro ⟨before, a, after, rfl, ha, hothers⟩
    refine ⟨?_, a, by simp, ha⟩
    intro before' a' after' hsplit ha' other hother hp
    have hmem' : a' ∈ before ++ a :: after := by rw [hsplit]; simp
    -- both are the one element, so the two splits are one
    rw [List.append_eq_append_iff] at hsplit
    rcases hsplit with ⟨c, rfl, hc⟩ | ⟨c, rfl, hc⟩
    · cases c with
      | nil =>
          obtain ⟨-, rfl⟩ := List.cons_eq_cons.mp hc
          rw [List.append_nil] at hother
          exact hothers other hother hp
      | cons x c =>
          obtain ⟨-, rfl⟩ := List.cons_eq_cons.mp hc
          exact hothers a' (by simp) ha'
    · cases c with
      | nil =>
          obtain ⟨-, rfl⟩ := List.cons_eq_cons.mp hc
          exact hothers other (by simpa using hother) hp
      | cons x c =>
          obtain ⟨rfl, -⟩ := List.cons_eq_cons.mp hc
          exact hothers a' (by simp) ha'
  · rintro ⟨hmost, a, ha, hp⟩
    obtain ⟨before, after, rfl⟩ := List.append_of_mem ha
    exact ⟨before, a, after, rfl, hp, hmost before a after rfl hp⟩

theorem exactlyOne_map {α β : Type} {p : β → Prop} {f : α → β} {l : List α} :
    ExactlyOne (fun a => p (f a)) l ↔ ExactlyOne p (l.map f) := by
  constructor
  · rintro ⟨before, a, after, rfl, ha, hothers⟩
    refine ⟨before.map f, f a, after.map f, by simp, ha, ?_⟩
    intro other hother
    rw [← List.map_append] at hother
    obtain ⟨x, hx, rfl⟩ := List.mem_map.mp hother
    exact hothers x hx
  · rintro ⟨before, b, after, hsplit, hb, hothers⟩
    obtain ⟨l₁, l₂, rfl, rfl, hl₂⟩ := List.map_eq_append_iff.mp hsplit
    obtain ⟨a, l₃, rfl, rfl, rfl⟩ := List.map_eq_cons_iff.mp hl₂
    refine ⟨l₁, a, l₃, rfl, hb, fun x hx => hothers (f x) ?_⟩
    rw [← List.map_append]
    exact List.mem_map_of_mem hx

theorem mem_callIds {content id : Lua} :
    id ∈ callIds content ↔ (∃ block ∈ usesOf content, block.get "id" = id) ∧ id.isNil = false := by
  rw [Shell.callIds_eq, List.mem_filter, Shell.useIds, List.mem_map]
  simp only [Bool.not_eq_true']
  rfl

section

variable {host : Host} {messages : List Lua}

theorem Folded.of_append {before after : List Lua} (h : Folded (before ++ after)) : Folded after :=
  ⟨fun m hm => h.table m (List.mem_append_right _ hm),
    fun m hm => h.role m (List.mem_append_right _ hm),
    fun m hm => h.content m (List.mem_append_right _ hm)⟩

/-- The one message an assistant's message becomes, and its calls. -/
theorem Converted.assistant_eq {m : Lua} {group : List OaiMessage} (h : Converted host m group)
    (hcontent : HasContent m) (hassistant : m.get "role" = .str "assistant") :
    ∃ o, group = [o] ∧ o.role = .str "assistant" ∧
      List.Forall₂ (CallOf host) (usesOf (m.get "content")) (o.toolCalls.getD []) := by
  cases h with
  | said hs =>
      refine ⟨_, rfl, hassistant, ?_⟩
      rw [hs]
      exact .nil
  | assistant _ hblocks ho =>
      obtain ⟨hr, hcalls, -, -⟩ := convertAssistant_ok (hcontent.tables hblocks) ho
      rw [hblocks]
      exact ⟨_, rfl, hr, hcalls⟩
  | results huser _ _ =>
      rw [hassistant] at huser
      simp at huser
  | user huser _ _ _ =>
      rw [hassistant] at huser
      simp at huser

/-- An assistant's message on the wire comes of an assistant's. -/
theorem Converted.of_assistant {m : Lua} {group : List OaiMessage} (h : Converted host m group)
    {o : OaiMessage} (ho : o ∈ group) (hassistant : o.role = .str "assistant") :
    m.get "role" = .str "assistant" := by
  cases h with
  | said _ =>
      cases List.mem_singleton.mp ho
      exact hassistant
  | assistant ha _ _ => exact ha
  | results _ _ _ =>
      obtain ⟨block, -, rfl⟩ := List.mem_map.mp ho
      simp [toolMessage] at hassistant
  | user _ _ _ _ =>
      cases List.mem_singleton.mp ho
      simp at hassistant

theorem not_assistant_of_system {system : Lua} {o : OaiMessage} (ho : o ∈ systemMessages system) :
    o.role = .str "system" := by
  rw [systemMessages] at ho
  split at ho
  · cases List.mem_singleton.mp ho
    rfl
  · cases ho

/-- Each call has a result in a message list that pairs them. -/
theorem exists_result {after : List Lua} {m : Lua}
    (hpaired : ∀ id ∈ callIds (m.get "content"), ∃ blocks rest,
      after = Shell.userMessage (.array blocks) :: rest ∧ ∃ block ∈ blocks, Shell.Answers id block)
    {id : Lua} (hid : id ∈ callIds (m.get "content")) : ∃ a ∈ resultIds after, SameId a id := by
  obtain ⟨blocks, rest, rfl, block, hblock, htype, hsame⟩ := hpaired id hid
  have hmem : block ∈ resultsOf ((Shell.userMessage (.array blocks)).get "content") := by
    rw [Shell.content_userMessage]
    exact List.mem_filter.mpr ⟨hblock, Lua.eq_str.mpr htype⟩
  refine ⟨block.get "tool_use_id", ?_, hsame⟩
  rw [resultIds, List.takeWhile_cons_of_pos]
  · rw [List.flatMap_cons]
    exact List.mem_append_left _ (List.mem_map_of_mem hmem)
  · have hne := List.ne_nil_of_mem hmem
    simpa using hne

/-- Each call is answered by one tool message exactly where no call is answered
twice. -/
theorem answered_iff (hfold : Folded messages) (system : Lua)
    (hconverted : ∀ m ∈ messages, Converted host m (groupOf host m))
    (hwhole : ∀ m ∈ messages, m.get "role" = .str "assistant" → resultsOf (m.get "content") = [])
    (hpaired : ∀ before m after, messages = before ++ m :: after → m.get "role" = .str "assistant" →
      ∀ id ∈ callIds (m.get "content"), ∃ blocks rest,
        after = Shell.userMessage (.array blocks) :: rest ∧ ∃ block ∈ blocks, Shell.Answers id block) :
    (∀ before o after, systemMessages system ++ messages.flatMap (groupOf host) = before ++ o :: after →
      o.role = .str "assistant" → ∀ calls, o.toolCalls = some calls → ∀ call ∈ calls,
      call.id.isNil = false → ExactlyOne (fun r => SameId r.toolCallId call.id) (after.takeWhile isTool)) ↔
    ∀ before m after, messages = before ++ m :: after → m.get "role" = .str "assistant" →
      ∀ id ∈ callIds (m.get "content"), AtMostOne (fun a => SameId a id) (resultIds after) := by
  -- what follows an assistant's message, on the wire and in the list
  have hafter {before m after} (hsplit : messages = before ++ m :: after) (id : Lua) :
      ExactlyOne (fun r => SameId r.toolCallId id)
        ((after.flatMap (groupOf host)).takeWhile isTool) ↔
      ExactlyOne (fun a => SameId a id) (resultIds after) := by
    have hsub : ∀ x ∈ after, x ∈ messages := fun x hx => by rw [hsplit]; simp [hx]
    have hfold' : Folded after := by
      have := hsplit ▸ hfold
      rw [← List.singleton_append, ← List.append_assoc] at this
      exact this.of_append
    rw [@exactlyOne_map _ _ (fun a => SameId a id) (fun r : OaiMessage => r.toolCallId),
      tools_of_groups hfold' (fun x hx => hconverted x (hsub x hx)) fun x hx => hwhole x (hsub x hx)]
  constructor
  · intro hout before m after hsplit hassistant id hid
    have hm : m ∈ messages := by rw [hsplit]; simp
    obtain ⟨o, hgroup, ho, hcalls⟩ := (hconverted m hm).assistant_eq (hfold.content m hm) hassistant
    obtain ⟨⟨block, hblock, rfl⟩, hnamed⟩ := mem_callIds.mp hid
    obtain ⟨call, hcall, hcallid, -⟩ := Shell.exists_right_of_forall₂ hcalls hblock
    cases hsome : o.toolCalls with
    | none =>
        rw [hsome] at hcall
        cases hcall
    | some calls =>
        rw [hsome] at hcall
        have hone := hout (systemMessages system ++ before.flatMap (groupOf host)) o
          (after.flatMap (groupOf host)) (by rw [hsplit]; simp [hgroup]) ho calls hsome call hcall
          (by rw [hcallid]; exact hnamed)
        rw [hcallid] at hone
        exact (exactlyOne_iff.mp ((hafter hsplit _).mp hone)).1
  · intro honce before o after hsplit ho calls hsome call hcall hnamed
    have hpart : (∃ c, messages.flatMap (groupOf host) = c ++ o :: after) ∨
        o ∈ systemMessages system := by
      rw [List.append_eq_append_iff] at hsplit
      rcases hsplit with ⟨c, -, hc⟩ | ⟨c, hsys, hc⟩
      · exact .inl ⟨c, hc⟩
      · cases c with
        | nil => exact .inl ⟨[], hc.symm⟩
        | cons z c =>
            obtain ⟨rfl, -⟩ := List.cons_eq_cons.mp hc
            exact .inr (by rw [hsys]; simp)
    rcases hpart with ⟨c, hc⟩ | hmem
    · obtain ⟨l₁, m, l₂, x, y, hl, hgroup, -, hy⟩ := Shell.exists_of_flatMap_eq hc
      have hm : m ∈ messages := by rw [hl]; simp
      have hassistant := (hconverted m hm).of_assistant (by rw [hgroup]; simp) ho
      obtain ⟨o', hgroup', -, hcalls⟩ :=
        (hconverted m hm).assistant_eq (hfold.content m hm) hassistant
      rw [hgroup'] at hgroup
      have hx : x = [] ∧ o' = o ∧ y = [] := by
        cases x with
        | nil =>
            obtain ⟨rfl, hnil⟩ := List.cons_eq_cons.mp hgroup
            exact ⟨rfl, rfl, hnil.symm⟩
        | cons z x => simp at hgroup
      obtain ⟨rfl, rfl, rfl⟩ := hx
      rw [hsome] at hcalls
      obtain ⟨block, hblock, hcallid, -⟩ := Shell.exists_right_of_forall₂ hcalls.flip hcall
      have hid : call.id ∈ callIds (m.get "content") :=
        mem_callIds.mpr ⟨⟨block, hblock, hcallid.symm⟩, hnamed⟩
      have hsome' := exists_result (hpaired l₁ m l₂ hl hassistant) hid
      rw [hy, List.nil_append]
      exact (hafter hl _).mpr (exactlyOne_iff.mpr ⟨honce l₁ m l₂ hl hassistant _ hid, hsome'⟩)
    · rw [not_assistant_of_system hmem] at ho
      simp at ho

end

/-! ### Transcripts -/

section

variable {host : Host}

/-- A message whose line can be told: its content is a text or none, and its
calls have names. -/
structure Plain (o : OaiMessage) : Prop where
  role : o.role = .str "system" ∨ o.role = .str "user" ∨ o.role = .str "assistant" ∨
    o.role = .str "tool"
  content : o.content = .nil ∨ ∃ s, o.content = .str s
  calls : ∀ calls, o.toolCalls = some calls → ∃ names : List String,
    calls.map (fun tc => tc.name) = names.map .str

theorem lineText_ok {o : OaiMessage} (h : Plain o) :
    ∃ line, lineText host o.content = .ok line ∧ ∀ c, o.content = .str c → line = c := by
  rcases h.content with hnil | ⟨s, hs⟩
  · exact ⟨"", by rw [hnil]; rfl, fun c hc => by rw [hnil] at hc; cases hc⟩
  · refine ⟨s, by rw [hs]; rfl, fun c hc => ?_⟩
    rw [hs] at hc
    cases hc
    rfl

theorem callLine_ok {calls : List OaiToolCall} {names : List String}
    (h : calls.map (fun tc => tc.name) = names.map .str) :
    ∃ line, callLine host calls = .ok line := by
  have hnames : calls.map (fun tc => tc.name.orElse (.str "?")) = names.map .str := by
    have := congrArg (List.map fun v : Lua => v.orElse (.str "?")) h
    rw [List.map_map, List.map_map] at this
    exact this
  refine ⟨"[tool call] " ++ ", ".intercalate names, ?_⟩
  simp only [callLine, hnames, concat_str, bind, Except.bind]
  rfl

theorem lineOf_ok {o : OaiMessage} (h : Plain o) : ∃ role line,
    lineOf host o = .ok (role, line) ∧ (role = .str "user" ∨ role = .str "assistant") ∧
      Shows o line := by
  by_cases htool : o.role = .str "tool"
  · refine ⟨.str "user", _, by rw [lineOf, if_pos (Lua.eq_str.mpr htool)]; rfl, .inl rfl, ?_⟩
    intro c hc
    rw [hc]
    exact ⟨"[tool result] ", rfl⟩
  obtain ⟨line, hline, hsame⟩ := @lineText_ok host _ h
  have hrole : (if o.role.eq (.str "system") then Lua.str "user" else o.role) = .str "user" ∨
      (if o.role.eq (.str "system") then Lua.str "user" else o.role) = .str "assistant" := by
    rcases h.role with hr | hr | hr | hr
    · rw [hr]
      exact .inl rfl
    · rw [hr]
      exact .inl rfl
    · rw [hr]
      exact .inr rfl
    · exact absurd hr htool
  have hshows : Shows o line := fun c hc => ⟨"", by rw [hsame c hc]; simp⟩
  rw [lineOf, if_neg fun heq => htool (Lua.eq_str.mp heq)]
  simp only [hline, bind, Except.bind]
  generalize (if o.role.eq (.str "system") then Lua.str "user" else o.role) = role at hrole
  cases hcalls : o.toolCalls with
  | none => exact ⟨_, line, rfl, hrole, hshows⟩
  | some calls =>
      simp only []
      split
      · rename_i hempty
        obtain ⟨names, hnames⟩ := h.calls calls hcalls
        obtain ⟨called, hcalled⟩ := @callLine_ok host _ _ hnames
        rw [hcalled]
        refine ⟨_, called, rfl, hrole, fun c hc => ⟨called, ?_⟩⟩
        rw [← hsame c hc, hempty.2]
        simp
      · exact ⟨_, line, rfl, hrole, hshows⟩

/-- A transcript so far, and the lines its turns were made of. -/
structure Transcript (lines : List Line) (parts : List (List String)) : Prop where
  sides : ∀ line ∈ lines, line.role = .str "user" ∨ line.role = .str "assistant"
  turns : lines.IsChain fun a b => a.role ≠ b.role
  joined : List.Forall₂ (fun line part => line.content = "\n\n".intercalate part ∧ part ≠ [])
    lines parts

theorem forall₂_concat {α β : Type} {R : α → β → Prop} {l : List α} {a : α} {l' : List β}
    (h : List.Forall₂ R (l ++ [a]) l') :
    ∃ before b, l' = before ++ [b] ∧ List.Forall₂ R l before ∧ R a b := by
  induction l generalizing l' with
  | nil =>
      obtain ⟨b, rest, hab, hrest, rfl⟩ := List.forall₂_cons_left_iff.mp h
      cases hrest
      exact ⟨[], b, rfl, .nil, hab⟩
  | cons x l ih =>
      obtain ⟨y, rest, hxy, hrest, rfl⟩ := List.forall₂_cons_left_iff.mp h
      obtain ⟨before, b, rfl, hbefore, hab⟩ := ih hrest
      exact ⟨y :: before, b, rfl, .cons hxy hbefore, hab⟩

/-- One line more: a turn of its own, or the end of the last turn. -/
theorem Transcript.addTurn {lines : List Line} {parts : List (List String)}
    (h : Transcript lines parts) {role : Lua} (line : String)
    (hrole : role = .str "user" ∨ role = .str "assistant") :
    ∃ parts', Transcript (addTurn lines role line) parts' ∧
      parts'.flatten = parts.flatten ++ [line] := by
  let turn : Line := { role, content := line }
  have hown (hturns : (lines ++ [turn]).IsChain fun a b => a.role ≠ b.role) :
      Transcript (lines ++ [turn]) (parts ++ [[line]]) := by
    refine ⟨?_, hturns, List.rel_append h.joined (.cons ⟨by simp [turn], by simp⟩ .nil)⟩
    intro x hx
    rcases List.mem_append.mp hx with hx | hx
    · exact h.sides x hx
    · cases List.mem_singleton.mp hx
      exact hrole
  rw [Openai.addTurn]
  cases hlast : lines.getLast? with
  | none =>
      have hnil := List.getLast?_eq_none_iff.mp hlast
      subst hnil
      have hparts := List.forall₂_nil_left_iff.mp h.joined
      subst hparts
      exact ⟨[[line]], hown (List.isChain_singleton _), rfl⟩
  | some prev =>
      obtain ⟨before, rfl⟩ := List.getLast?_eq_some_iff.mp hlast
      simp only [List.dropLast_concat]
      by_cases hsame : prev.role.eq role = true
      · -- the role spoke last: its turn grows
        rw [if_pos hsame]
        obtain ⟨earlier, part, rfl, hearlier, hpart, hne⟩ := forall₂_concat h.joined
        refine ⟨earlier ++ [part ++ [line]], ⟨?_, ?_, ?_⟩, by simp⟩
        · intro x hx
          rcases List.mem_append.mp hx with hx | hx
          · exact h.sides x (List.mem_append_left _ hx)
          · cases List.mem_singleton.mp hx
            exact h.sides prev (by simp)
        · have hchain := List.isChain_append.mp h.turns
          refine hchain.1.append (List.isChain_singleton _) fun x hx y hy => ?_
          cases hy
          exact hchain.2.2 x hx prev rfl
        · refine List.rel_append hearlier (.cons ⟨?_, by simp⟩ .nil)
          rw [String.intercalate_append_of_ne_nil hne (by simp), ← hpart]
          simp
      · rw [if_neg hsame]
        refine ⟨parts ++ [[line]], hown ?_, by simp⟩
        refine h.turns.append (List.isChain_singleton _) ?_
        intro x hx y hy heq
        rw [hlast] at hx
        cases hx
        cases hy
        apply hsame
        have heq' : prev.role = role := heq
        rw [heq']
        rcases hrole with rfl | rfl <;> rfl

theorem flattenFrom_ok {messages : List OaiMessage} (h : ∀ o ∈ messages, Plain o)
    {lines : List Line} {parts : List (List String)} (ht : Transcript lines parts) :
    ∃ lines' parts' shown, flattenFrom host lines messages = .ok lines' ∧
      Transcript lines' parts' ∧ parts'.flatten = parts.flatten ++ shown ∧
      List.Forall₂ Shows messages shown := by
  induction messages generalizing lines parts with
  | nil => exact ⟨lines, parts, [], rfl, ht, by simp, .nil⟩
  | cons o rest ih =>
      obtain ⟨role, line, hline, hrole, hshows⟩ := @lineOf_ok host _ (h o List.mem_cons_self)
      obtain ⟨parts₁, ht₁, hflat₁⟩ := ht.addTurn line hrole
      obtain ⟨lines', parts', shown, hrun, ht', hflat, hshown⟩ :=
        ih (fun x hx => h x (List.mem_cons_of_mem _ hx)) ht₁
      refine ⟨lines', parts', line :: shown, ?_, ht', ?_, .cons hshows hshown⟩
      · simp only [flattenFrom, hline, bind, Except.bind]
        exact hrun
      · rw [hflat, hflat₁]
        simp

/-- **The flattened transcript** alternates and shows every message. -/
theorem flatten_ok {messages : List OaiMessage} (h : ∀ o ∈ messages, Plain o) :
    ∃ lines, flattenForStrictAlternation host messages = .ok lines ∧ Alternates messages lines := by
  have hempty : Transcript [] [] := ⟨nofun, List.isChain_nil, .nil⟩
  obtain ⟨lines, parts, shown, hrun, ht, hflat, hshown⟩ := @flattenFrom_ok host _ h _ _ hempty
  rw [List.flatten_nil, List.nil_append] at hflat
  exact ⟨lines, hrun, ht.sides, ht.turns, parts, ht.joined.imp fun _ _ hj => hj.1, hflat ▸ hshown⟩

/-- An assistant's message with nothing left out says or calls something. -/
theorem filled_of_whole {m : Lua} {group : List OaiMessage} (h : Whole host m)
    (hcontent : HasContent m) (hconverted : Converted host m group) {o : OaiMessage}
    (ho : o ∈ group) (hassistant : o.role = .str "assistant") :
    o.content.isNil = false ∨ ∃ call calls, o.toolCalls = some (call :: calls) := by
  have hrole := hconverted.of_assistant ho hassistant
  cases hconverted with
  | said hs =>
      cases List.mem_singleton.mp ho
      exact .inl rfl
  | assistant _ hblocks hok =>
      cases List.mem_singleton.mp ho
      obtain ⟨-, hcalls, hne, hnil⟩ := convertAssistant_ok (hcontent.tables hblocks) hok
      rcases (h.assistant hrole).2 with ⟨s, hs⟩ | htexts | huses
      · rw [hblocks] at hs
        cases hs
      · refine .inl (Bool.eq_false_of_not_eq_true fun hn => htexts ?_)
        rw [hblocks]
        exact hnil.mp hn
      · rw [hblocks] at huses
        cases hsome : o.toolCalls with
        | none =>
            rw [hsome] at hcalls
            exact absurd (List.forall₂_nil_right_iff.mp hcalls) huses
        | some calls =>
            cases calls with
            | nil => exact absurd hsome hne
            | cons call calls => exact .inr ⟨call, calls, rfl⟩
  | results _ _ _ =>
      obtain ⟨block, -, rfl⟩ := List.mem_map.mp ho
      exact .inl rfl
  | user _ _ _ _ =>
      cases List.mem_singleton.mp ho
      exact .inl rfl

/-- What a message with nothing left out becomes has texts and names. -/
theorem plain_of_whole {m : Lua} {group : List OaiMessage} (h : Whole host m)
    (hcontent : HasContent m) (hrole : Roled m) (hconverted : Converted host m group) :
    ∀ o ∈ group, Plain o := by
  intro o ho
  cases hconverted with
  | said hs =>
      cases List.mem_singleton.mp ho
      refine ⟨?_, .inr ⟨_, rfl⟩, by simp⟩
      rcases hrole with hr | hr
      · exact .inr (.inl hr)
      · exact .inr (.inr (.inl hr))
  | @assistant blocks fields _ hassistant hblocks hok =>
      cases List.mem_singleton.mp ho
      have htables := hcontent.tables hblocks
      have hfields : ∀ block ∈ blocks, FieldsRead host block := by
        have := h.fields
        rwa [hblocks] at this
      obtain ⟨hr, hcalls, -, -⟩ := convertAssistant_ok htables hok
      obtain ⟨ts, -, hts⟩ := texts_of_blocks hfields (by
        have := (h.assistant hassistant).1
        rwa [hblocks] at this)
      refine ⟨.inr (.inr (.inl hr)), ?_, fun calls hsome => ?_⟩
      · have := hok
        simp only [convertAssistant, bind_eq_ok] at this
        obtain ⟨⟨texts, calls⟩, hparts, content, hcontent, heq⟩ := this
        obtain ⟨rfl, -⟩ := assistantParts_ok htables hparts
        rw [hts] at hparts
        rw [convertAssistant_eq hparts] at hok
        cases hok
        -- the joined texts, or nothing where there is none
        show (if ts.isEmpty then Lua.nil else .str ("\n".intercalate ts)) = .nil ∨ _
        split
        · exact .inl rfl
        · exact .inr ⟨_, rfl⟩
      · rw [hsome] at hcalls
        have hsame := sameCalls hfields hcalls
        show ∃ names : List String, calls.map (fun tc => tc.name) = names.map .str
        simp only [Option.getD_some] at hsame
        clear hcalls hsome
        generalize blocks.filter (isType "tool_use") = uses at hsame
        induction hsame with
        | nil => exact ⟨[], rfl⟩
        | cons hcall _ ih =>
            obtain ⟨names, hnames⟩ := ih
            obtain ⟨-, ⟨name, -, hname⟩, -⟩ := hcall
            exact ⟨name :: names, by rw [List.map_cons, List.map_cons, hnames, hname]⟩
  | results _ _ _ =>
      obtain ⟨block, -, rfl⟩ := List.mem_map.mp ho
      exact ⟨.inr (.inr (.inr rfl)), .inr ⟨_, rfl⟩, by simp [toolMessage]⟩
  | user _ _ _ _ =>
      cases List.mem_singleton.mp ho
      exact ⟨.inr (.inl rfl), .inr ⟨_, rfl⟩, by simp⟩

end

/-! ### Of a fold -/

section

variable {host : Host} {encode : Lua → Except Lua String} {events messages : List Lua}

theorem folded_of_foldMessages (h : foldMessages encode events = .ok messages)
    (hcontent : ∀ m ∈ messages, HasContent m) : Folded messages := by
  have hread := Shell.readable_of_foldMessages h
  rw [Shell.foldMessages_eq hread] at h
  cases h
  have hshape : ∀ m ∈ (Shell.turnsOf encode events).flatMap Shell.Turn.messages,
      (∃ content, m = Shell.userMessage content) ∨ ∃ content, m = Shell.assistantMessage content := by
    intro m hm
    obtain ⟨t, ht, hin⟩ := List.mem_flatMap.mp hm
    rcases List.mem_append.mp hin with hin | hin
    · rcases (Shell.turnsOf_proper hread t ht).said with ⟨hnone, -⟩ | ⟨message, hsome, hsaid⟩
      · rw [hnone] at hin
        cases hin
      · rw [hsome] at hin
        cases List.mem_singleton.mp hin
        generalize t.ids = ids at hsaid
        cases hsaid with
        | user content => exact .inl ⟨content, rfl⟩
        | assistant content => exact .inr ⟨content, rfl⟩
    · rw [Shell.Turn.answers] at hin
      split at hin
      · cases hin
      · cases List.mem_singleton.mp hin
        exact .inl ⟨_, rfl⟩
  refine ⟨fun m hm => ?_, fun m hm => ?_, hcontent⟩
  · rcases hshape m hm with ⟨content, rfl⟩ | ⟨content, rfl⟩ <;> rfl
  · rcases hshape m hm with ⟨content, rfl⟩ | ⟨content, rfl⟩
    · exact .inl (Shell.role_userMessage content)
    · exact .inr (Shell.role_assistantMessage content)

theorem paired_of_foldMessages (h : foldMessages encode events = .ok messages) :
    ∀ before m after, messages = before ++ m :: after → m.get "role" = .str "assistant" →
      ∀ id ∈ callIds (m.get "content"), ∃ blocks rest,
        after = Shell.userMessage (.array blocks) :: rest ∧
        ∃ block ∈ blocks, Shell.Answers id block := by
  have hread := Shell.readable_of_foldMessages h
  rw [Shell.foldMessages_eq hread] at h
  cases h
  exact (Shell.kept_of_readable hread).answered

theorem plain_of_system {system : Option String} {o : OaiMessage}
    (ho : o ∈ systemMessages (system.elim .nil .str)) : Plain o := by
  have hrole := not_assistant_of_system ho
  rw [systemMessages] at ho
  split at ho
  · cases List.mem_singleton.mp ho
    refine ⟨.inl hrole, ?_, fun calls h => nomatch h⟩
    cases system with
    | none => exact .inl rfl
    | some s => exact .inr ⟨s, rfl⟩
  · cases ho

/-- **The rendering keeps a folded conversation** exactly where nothing is in it
that the rendering leaves out and no call is answered twice. -/
theorem keeps_iff (hfold : foldMessages encode events = .ok messages)
    (hcontent : ∀ m ∈ messages, HasContent m) (system : Option String) :
    (∃ out, convertMessages host (.array messages) (system.elim .nil .str) = .ok out ∧
      Keeps host (system.elim .nil .str) messages out) ↔ Renderable host messages := by
  have hfolded := folded_of_foldMessages hfold hcontent
  have hpaired := paired_of_foldMessages hfold
  constructor
  · rintro ⟨out, hout, hkeeps⟩
    obtain ⟨hconverted, rfl⟩ := (convertMessages_ok_iff hfolded _).mp hout
    obtain ⟨groups, hflat, hrenders⟩ := hkeeps.inOrder
    have hwhole := whole_of_renders hfolded hconverted (List.append_cancel_left hflat) hrenders
      fun m hm o ho => hkeeps.filled o
        (List.mem_append_right _ (List.mem_flatMap.mpr ⟨m, hm, ho⟩))
    refine ⟨hwhole, ?_⟩
    exact (answered_iff hfolded _ hconverted (fun m hm ha => ((hwhole m hm).assistant ha).1)
      hpaired).mp hkeeps.answered
  · intro hrenderable
    have hgroups : ∀ m ∈ messages, Converted host m (groupOf host m) ∧
        Renders host m (groupOf host m) := by
      intro m hm
      obtain ⟨group, hconv, hrend⟩ := renders_of_whole (hrenderable.whole m hm) (hcontent m hm)
        (hfolded.role m hm)
      -- one group can come of a message, the one it is converted to
      have hgroup : groupOf host m = group := by
        rw [groupOf, (hfolded.converted_iff hm).mpr hconv]
      rw [hgroup]
      exact ⟨hconv, hrend⟩
    have hconverted := fun m hm => (hgroups m hm).1
    refine ⟨_, (convertMessages_ok_iff hfolded _).mpr ⟨hconverted, rfl⟩, ?_⟩
    constructor
    · exact (answered_iff hfolded _ hconverted
        (fun m hm ha => ((hrenderable.whole m hm).assistant ha).1) hpaired).mpr hrenderable.once
    · refine ⟨messages.map (groupOf host), rfl, ?_⟩
      rw [List.forall₂_map_right_iff, List.forall₂_same]
      exact fun m hm => (hgroups m hm).2
    · intro o ho hassistant
      rcases List.mem_append.mp ho with ho | ho
      · rw [not_assistant_of_system ho] at hassistant
        simp at hassistant
      · obtain ⟨m, hm, hin⟩ := List.mem_flatMap.mp ho
        exact filled_of_whole (hrenderable.whole m hm) (hcontent m hm) (hconverted m hm) hin
          hassistant
    · apply flatten_ok
      intro o ho
      rcases List.mem_append.mp ho with ho | ho
      · exact plain_of_system ho
      · obtain ⟨m, hm, hin⟩ := List.mem_flatMap.mp ho
        exact plain_of_whole (hrenderable.whole m hm) (hcontent m hm) (hfolded.role m hm)
          (hconverted m hm) o hin

end

/-! ### Of an answer -/

/-- The arguments a call was answered with. -/
def argumentsOf (toolCall : Lua) : Lua := (orEmpty (toolCall.get "function")).get "arguments"

/-- The arguments are an object, or a text of one. -/
def ArgumentsObject (host : Host) (toolCall : Lua) : Prop :=
  (argumentsOf toolCall).isTable = true ∨
    ∃ s v, (argumentsOf toolCall).orElse (.str "{}") = .str s ∧ host.decode s = .ok v ∧
      v.isTable = true

/-- The text of an answer beside its reasoning; none where it is empty. -/
def answerText (message : Lua) : Lua :=
  let text := (reasoningAndText message).2
  if text.truthy ∧ text.eq (.str "") = false then text else .nil

section

variable (host : Host) (reads : String → Option Json)

/-- A text of the same arguments: of an object, its encoding; of a text, one
that reads as the same JSON. -/
def SameArguments (arguments : Lua) (s : String) : Prop :=
  if arguments.isTable then host.encode arguments = .ok s
  else ∃ t, arguments.orElse (.str "{}") = .str t ∧ reads s = reads t

/-- A call given back: the id and the name it came with, where it had one, and
the same arguments. -/
structure SameToolCall (toolCall : Lua) (call : OaiToolCall) : Prop where
  id : (toolCall.get "id").isNil = false → (toolCall.get "id").eq (.str "") = false →
    call.id = toolCall.get "id"
  name : call.name = ((orEmpty (toolCall.get "function")).get "name").orElse (.str "")
  arguments : SameArguments host reads (argumentsOf toolCall) call.arguments

/-- The rendering gives back what a message says and calls. -/
def GivesBack (message : Lua) (decoded : Decoded) : Prop :=
  ∃ o, convertMessages host (.array [Shell.assistantMessage decoded.content]) .nil = .ok [o] ∧
    o.content = answerText message ∧
    List.Forall₂ (SameToolCall host reads) (callsOf (orEmpty (message.get "tool_calls")))
      (o.toolCalls.getD [])

/-- What is decoded from a text of arguments encodes to one that reads the
same. -/
def Survives (toolCall : Lua) : Prop :=
  ∃ input s, inputOf host (argumentsOf toolCall) = some input ∧ host.encode input = .ok s ∧
    SameArguments host reads (argumentsOf toolCall) s

end
section

variable {host : Host} {reads : String → Option Json}

theorem toolUses_forall₂ {i : Nat} {toolCalls blocks : List Lua}
    (h : toolUses host i toolCalls = .ok blocks) :
    List.Forall₂ (fun tc block => ∃ j, toolUse host j tc = .ok block) toolCalls blocks := by
  induction toolCalls generalizing i blocks with
  | nil =>
      cases h
      exact .nil
  | cons tc rest ih =>
      simp only [toolUses, bind_eq_ok] at h
      obtain ⟨block, hblock, others, hothers, h⟩ := h
      obtain rfl := Except.ok.inj h
      exact .cons ⟨i, hblock⟩ (ih hothers)

/-- The arguments of a call that are an object are its block's input. -/
theorem toolUse_input {i : Nat} {toolCall block : Lua} (h : toolUse host i toolCall = .ok block)
    (hargs : ArgumentsObject host toolCall) :
    ∃ input, inputOf host (argumentsOf toolCall) = some input ∧ input.isTable = true ∧
      block.get "input" = input := by
  have hsome : ∃ input, inputOf host (argumentsOf toolCall) = some input ∧ input.isTable = true := by
    rw [inputOf]
    by_cases htable : (argumentsOf toolCall).isTable = true
    · exact ⟨_, if_pos htable, htable⟩
    · rw [if_neg htable]
      obtain ⟨s, v, hs, hv, hvt⟩ := hargs.resolve_left htable
      rw [hs]
      simp only [hv, hvt, if_true]
      exact ⟨v, rfl, hvt⟩
  obtain ⟨input, hinput, htable⟩ := hsome
  refine ⟨input, hinput, htable, ?_⟩
  simp only [toolUse, bind_eq_ok] at h
  obtain ⟨fn, hfn, rawArgs, hraw, h⟩ := h
  obtain rfl := Lua.index_ok hfn
  obtain rfl := Lua.index_ok hraw
  have hinput' : inputOf host (((toolCall.get "function").orElse emptyTable).get "arguments") =
      some input := hinput
  rw [hinput'] at h
  obtain rfl := Except.ok.inj h
  rw [Lua.get_record (by simp)]
  rfl

/-- The text blocks of the prose of a message, and no call among them. -/
theorem proseOf_blocks (message : Lua) :
    (proseOf message).filter (isType "tool_use") = [] ∧
      ((proseOf message).filter (isType "text")).map
          (fun block => (block.get "text").orElse (.str "")) =
        if (answerText message).isNil then [] else [answerText message] := by
  rw [proseOf, answerText]
  rcases reasoningAndText message with ⟨reasoning, text⟩
  have hthinking (s : String) : isType "tool_use"
        (Lua.record [("type", .str "thinking"), ("thinking", .str s)]) = false ∧
      isType "text" (Lua.record [("type", .str "thinking"), ("thinking", .str s)]) = false := by
    constructor <;>
      · rw [isType, Lua.get_record (by simp)]
        rfl
  have htext (v : Lua) (hv : v.truthy = true) :
      isType "tool_use" (Lua.record [("type", .str "text"), ("text", v)]) = false ∧
      isType "text" (Lua.record [("type", .str "text"), ("text", v)]) = true ∧
      ((Lua.record [("type", .str "text"), ("text", v)]).get "text").orElse (.str "") = v := by
    refine ⟨?_, ?_, ?_⟩
    · rw [isType, Lua.get_record (by simp)]
      rfl
    · rw [isType, Lua.get_record (by simp)]
      rfl
    · rw [Lua.get_record (by simp)]
      show v.orElse (.str "") = v
      rw [Lua.orElse, if_pos hv]
  have hnil (v : Lua) (hv : v.truthy = true) : v.isNil = false := by
    cases v <;> first | rfl | cases hv
  simp only []
  split
  · rename_i hsays
    obtain ⟨huse, htype, hsame⟩ := htext text hsays.1
    cases reasoning with
    | none => simp [huse, htype, hsame, hnil text hsays.1]
    | some s => simp [huse, htype, hsame, hnil text hsays.1, hthinking s]
  · cases reasoning with
    | none => simp [Lua.isNil]
    | some s => simp [hthinking s, Lua.isNil]

/-- Every block of a call is a call's. -/
theorem filter_uses {toolCalls blocks : List Lua}
    (h : List.Forall₂ (fun tc block => ∃ j, toolUse host j tc = .ok block) toolCalls blocks) :
    blocks.filter (isType "tool_use") = blocks ∧ blocks.filter (isType "text") = [] := by
  have htypes : ∀ block ∈ blocks, block.get "type" = .str "tool_use" := by
    intro block hblock
    obtain ⟨tc, -, j, hj⟩ := Shell.exists_right_of_forall₂ h.flip hblock
    exact Lua.eq_str.mp (toolUse_spec hj).2.1
  constructor
  · refine List.filter_eq_self.mpr fun block hblock => ?_
    rw [isType, htypes block hblock]
    rfl
  · refine List.filter_eq_nil_iff.mpr fun block hblock => ?_
    rw [isType, htypes block hblock]
    simp [Lua.eq]

theorem id_of_toolUse {i : Nat} {toolCall block : Lua} (h : toolUse host i toolCall = .ok block)
    (hid : (toolCall.get "id").isNil = false) (hne : (toolCall.get "id").eq (.str "") = false) :
    block.get "id" = toolCall.get "id" := by
  rw [(toolUse_spec h).2.2.1, callId, if_neg]
  rintro (hnil | hempty)
  · rw [hid] at hnil
    cases hnil
  · rw [hne] at hempty
    cases hempty

/-- A call comes back the same exactly where its arguments survive. -/
theorem sameToolCall_of_callOf {i : Nat} {toolCall block : Lua} {call : OaiToolCall}
    (h : toolUse host i toolCall = .ok block) (hargs : ArgumentsObject host toolCall)
    (hcall : CallOf host block call) :
    SameToolCall host reads toolCall call ↔ Survives host reads toolCall := by
  obtain ⟨input, hinput, htable, hblock⟩ := toolUse_input h hargs
  obtain ⟨hid, hname, hencoded⟩ := hcall
  have htruthy : input.orElse emptyTable = input := by
    cases input <;> first | rfl | cases htable
  rw [hblock, htruthy] at hencoded
  constructor
  · intro hsame
    exact ⟨input, call.arguments, hinput, hencoded, hsame.arguments⟩
  · rintro ⟨input', s, hinput', hs, hsame⟩
    rw [hinput] at hinput'
    cases hinput'
    rw [hencoded] at hs
    cases hs
    refine ⟨fun hnil hne => ?_, ?_, hsame⟩
    · rw [hid]
      exact id_of_toolUse h hnil hne
    · rw [hname, (toolUse_spec h).2.2.2]

theorem sameToolCalls_iff {toolCalls uses : List Lua} {calls : List OaiToolCall}
    (huses : List.Forall₂ (fun tc block => ∃ j, toolUse host j tc = .ok block) toolCalls uses)
    (hcalls : List.Forall₂ (CallOf host) uses calls)
    (hargs : ∀ tc ∈ toolCalls, ArgumentsObject host tc) :
    List.Forall₂ (SameToolCall host reads) toolCalls calls ↔
      ∀ tc ∈ toolCalls, Survives host reads tc := by
  induction huses generalizing calls with
  | nil =>
      cases hcalls
      exact ⟨fun _ => nofun, fun _ => .nil⟩
  | cons huse _ ih =>
      obtain ⟨j, hj⟩ := huse
      obtain ⟨call, rest, hcall, hrest, rfl⟩ := List.forall₂_cons_left_iff.mp hcalls
      rw [List.forall_mem_cons] at hargs ⊢
      rw [List.forall₂_cons, ih hrest hargs.2, sameToolCall_of_callOf hj hargs.1 hcall]

/-- An assistant's message, on its own. -/
theorem convertMessages_assistant (blocks : List Lua) :
    convertMessages host (.array [Shell.assistantMessage (.array blocks)]) .nil =
      (convertAssistant host blocks).map fun o => [o] := by
  have hmessage : convertMessage host (Shell.assistantMessage (.array blocks)) =
      (convertAssistant host blocks).map fun o => [o] := by
    have hcontent : (Shell.assistantMessage (.array blocks)).index "content" =
        .ok (.table blocks []) := by
      rw [Lua.index_of_isIndexable rfl, Shell.content_assistantMessage]
      rfl
    simp only [convertMessage, hcontent, Shell.role_assistantMessage, bind, Except.bind, Lua.eq,
      decide_true, if_true]
    cases convertAssistant host blocks <;> rfl
  have helements : elements ((Lua.array [Shell.assistantMessage (.array blocks)]).orElse emptyTable) =
      .ok [Shell.assistantMessage (.array blocks)] := rfl
  simp only [convertMessages, helements, convertEach, hmessage, bind, Except.bind]
  cases convertAssistant host blocks <;> rfl

theorem content_convertAssistant {blocks : List Lua} {o : OaiMessage}
    (h : convertAssistant host blocks = .ok o) : o.content = .nil ∨ ∃ s, o.content = .str s := by
  simp only [convertAssistant, bind_eq_ok] at h
  obtain ⟨⟨texts, calls⟩, -, content, hcontent, h⟩ := h
  obtain rfl := Except.ok.inj h
  rw [textContent] at hcontent
  split at hcontent
  · exact .inl (Except.ok.inj hcontent).symm
  · simp only [bind_eq_ok] at hcontent
    obtain ⟨s, -, hs⟩ := hcontent
    exact .inr ⟨s, (Except.ok.inj hs).symm⟩

/-- **An answer is given back** exactly where its text is a text and each call's
arguments survive the codec. -/
theorem gives_back_iff {raw : Lua} {decoded : Decoded}
    (hparse : parse host raw = .ok (.ok decoded))
    (hargs : ∀ tc ∈ callsOf (orEmpty ((messageOf (choiceOf host raw)).get "tool_calls")),
      ArgumentsObject host tc) :
    GivesBack host reads (messageOf (choiceOf host raw)) decoded ↔
      (answerText (messageOf (choiceOf host raw)) = .nil ∨
        ∃ s, answerText (messageOf (choiceOf host raw)) = .str s) ∧
      ∀ tc ∈ callsOf (orEmpty ((messageOf (choiceOf host raw)).get "tool_calls")),
        Survives host reads tc := by
  have hraw : raw.truthy = true := by
    by_contra hfalse
    simp only [parse, andIndex, if_neg hfalse, bind, Except.bind, pure, Except.pure,
      Host.lengthOrZero, if_true] at hparse
    cases hparse
  obtain ⟨-, hmessage⟩ := parse_spec hraw hparse
  obtain ⟨⟨uses, huses, hcontent⟩, -, -⟩ := parseMessage_spec hmessage
  generalize messageOf (choiceOf host raw) = message at hmessage huses hcontent hargs ⊢
  have hpairs := toolUses_forall₂ huses
  obtain ⟨hfilter, hnotext⟩ := filter_uses hpairs
  obtain ⟨hnouse, htext⟩ := proseOf_blocks message
  have htables : ∀ block ∈ proseOf message ++ uses, block.isTable = true := by
    intro block hblock
    rcases List.mem_append.mp hblock with hb | hb
    · exact (proseOf_spec message block hb).1
    · exact (toolUses_spec huses).1 block hb
  have hblocks : (proseOf message ++ uses).filter (isType "tool_use") = uses := by
    rw [List.filter_append, hnouse, hfilter, List.nil_append]
  rw [GivesBack, hcontent, convertMessages_assistant]
  constructor
  · rintro ⟨o, ho, htextEq, hcalls⟩
    cases hok : convertAssistant host (proseOf message ++ uses) with
    | error e =>
        rw [hok] at ho
        cases ho
    | ok o' =>
        rw [hok] at ho
        obtain ⟨rfl, -⟩ := List.cons_eq_cons.mp (Except.ok.inj ho)
        obtain ⟨-, hcalled, -, -⟩ := convertAssistant_ok htables hok
        rw [hblocks] at hcalled
        refine ⟨?_, (sameToolCalls_iff hpairs hcalled hargs).mp hcalls⟩
        rw [← htextEq]
        exact content_convertAssistant hok
  · rintro ⟨hanswer, hsurvive⟩
    -- every input can be encoded again, so the conversion does not raise
    have hreturns : Returns (assistantParts host (proseOf message ++ uses)) := by
      refine returns_assistantParts htables fun block hblock huse => ?_
      have hmem : block ∈ uses := hblocks ▸ List.mem_filter.mpr ⟨hblock, huse⟩
      obtain ⟨tc, htc, j, hj⟩ := Shell.exists_right_of_forall₂ hpairs.flip hmem
      obtain ⟨input, hinput, htable, hget⟩ := toolUse_input hj (hargs tc htc)
      obtain ⟨input', s, hinput', hs, -⟩ := hsurvive tc htc
      rw [hinput] at hinput'
      cases hinput'
      have htruthy : input.orElse emptyTable = input := by
        cases input <;> first | rfl | cases htable
      exact ⟨s, by rw [hget, htruthy, hs]⟩
    obtain ⟨⟨texts, calls⟩, hparts⟩ := hreturns
    obtain ⟨rfl, hcalled⟩ := assistantParts_ok htables hparts
    rw [hblocks] at hcalled
    rw [List.filter_append, hnotext, List.append_nil, htext] at hparts
    have hcalls := (sameToolCalls_iff hpairs hcalled hargs).mpr hsurvive
    have hgetD : (if calls.isEmpty then none else some calls).getD [] = calls := by
      cases calls <;> rfl
    rcases hanswer with hnil | ⟨s, hs⟩
    · rw [hnil] at hparts
      rw [@convertAssistant_eq host _ [] calls hparts]
      exact ⟨_, rfl, hnil.symm, by rw [hgetD]; exact hcalls⟩
    · rw [hs] at hparts
      rw [@convertAssistant_eq host _ [s] calls hparts]
      exact ⟨_, rfl, by rw [hs]; rfl, by rw [hgetD]; exact hcalls⟩

end

/-! ### Both ways -/

/-- **The OpenAI rendering keeps the conversation**: of a folded log exactly
where the messages are `Renderable`, and of a parsed answer exactly where its
text is a text and the arguments of its calls survive the codec. -/
theorem rendering_keeps_iff (host : Host) (reads : String → Option Json)
    {encode : Lua → Except Lua String} {events messages : List Lua}
    (hfold : foldMessages encode events = .ok messages) (hcontent : ∀ m ∈ messages, HasContent m)
    (system : Option String) {raw : Lua} {decoded : Decoded}
    (hparse : parse host raw = .ok (.ok decoded))
    (hargs : ∀ tc ∈ callsOf (orEmpty ((messageOf (choiceOf host raw)).get "tool_calls")),
      ArgumentsObject host tc) :
    ((∃ out, convertMessages host (.array messages) (system.elim .nil .str) = .ok out ∧
        Keeps host (system.elim .nil .str) messages out) ↔ Renderable host messages) ∧
      (GivesBack host reads (messageOf (choiceOf host raw)) decoded ↔
        (answerText (messageOf (choiceOf host raw)) = .nil ∨
          ∃ s, answerText (messageOf (choiceOf host raw)) = .str s) ∧
        ∀ tc ∈ callsOf (orEmpty ((messageOf (choiceOf host raw)).get "tool_calls")),
          Survives host reads tc) :=
  ⟨keeps_iff hfold hcontent system, gives_back_iff hparse hargs⟩

/-- A stored event with this content. -/
def stored (kind : String) (content : Lua) : Lua :=
  .record [("kind", .str kind), ("data", .record [("content", content)])]

def thinkingBlocks : Lua :=
  .array [.record [("type", .str "thinking"), ("thinking", .str "hm")]]

def besideBlocks : Lua :=
  .array [
    .record [("type", .str "tool_result"), ("tool_use_id", .str "t1"), ("content", .str "4")],
    .record [("type", .str "text"), ("text", .str "stop")]]

/-- A folded turn of reasoning only is sent with neither content nor calls, and
what a user says beside a result is not sent. -/
theorem a_turn_of_reasoning_is_sent_empty :
    (foldMessages (fun _ => .ok "") [stored "llm_response" thinkingBlocks] =
        .ok [Shell.assistantMessage thinkingBlocks] ∧
      ∀ host : Host, ¬ ∃ out,
        convertMessages host (.array [Shell.assistantMessage thinkingBlocks]) .nil = .ok out ∧
          Keeps host .nil [Shell.assistantMessage thinkingBlocks] out) ∧
    (foldMessages (fun _ => .ok "") [stored "msg_user" besideBlocks] =
        .ok [Shell.userMessage besideBlocks] ∧
      ∀ host : Host, ¬ ∃ out,
        convertMessages host (.array [Shell.userMessage besideBlocks]) .nil = .ok out ∧
          Keeps host .nil [Shell.userMessage besideBlocks] out) := by
  refine ⟨⟨rfl, fun host hkeeps => ?_⟩, ⟨rfl, fun host hkeeps => ?_⟩⟩
  · have hfold : foldMessages (fun _ => .ok "") [stored "llm_response" thinkingBlocks] =
        .ok [Shell.assistantMessage thinkingBlocks] := rfl
    have hcontent : ∀ m ∈ [Shell.assistantMessage thinkingBlocks], HasContent m := by
      intro m hm
      cases List.mem_singleton.mp hm
      exact .inr ⟨_, _, Shell.content_assistantMessage _, by simp [Lua.record, Lua.isTable]⟩
    have hwhole := ((keeps_iff hfold hcontent none).mp hkeeps).whole _ List.mem_cons_self
    rcases (hwhole.assistant (Shell.role_assistantMessage _)).2 with ⟨s, hs⟩ | htext | huse
    · rw [Shell.content_assistantMessage] at hs
      cases hs
    · exact htext rfl
    · exact huse rfl
  · have hfold : foldMessages (fun _ => .ok "") [stored "msg_user" besideBlocks] =
        .ok [Shell.userMessage besideBlocks] := rfl
    have hcontent : ∀ m ∈ [Shell.userMessage besideBlocks], HasContent m := by
      intro m hm
      cases List.mem_singleton.mp hm
      exact .inr ⟨_, _, Shell.content_userMessage _, by simp [Lua.record, Lua.isTable]⟩
    have hwhole := ((keeps_iff hfold hcontent none).mp hkeeps).whole _ List.mem_cons_self
    rcases (hwhole.user (Shell.role_userMessage _)).2 with hresult | htext
    · exact absurd hresult (by rw [Shell.content_userMessage]; exact List.cons_ne_nil _ _)
    · exact absurd htext (by rw [Shell.content_userMessage]; exact List.cons_ne_nil _ _)

/-- A host whose codec writes and reads the empty object. -/
def emptyObjects : Host where
  post := fun _ _ => .error .nil
  sleep := fun _ => .ok ()
  encode := fun _ => .ok "{}"
  decode := fun _ => .ok emptyTable
  len := fun items => items.length
  shown := fun _ => ""
  debugRaw := false
  dev := false

/-- An answer that says one thing and calls one tool, without arguments. -/
def answeredRaw : Lua :=
  .record [("choices", .array [.record [("message", .record [
    ("content", .str "yes"),
    ("tool_calls", .array [.record [("id", .str "t1"),
      ("function", .record [("name", .str "go"), ("arguments", .str "{}")])]])])]])]

/-- The empty object, read. -/
def readsEmpty (s : String) : Option Json := if s = "{}" then some (.obj []) else none

/-- A question, a call that is made for it, and what it came to. -/
def sumEvents : List Lua :=
  [stored "msg_user" (.str "two and two?"),
    stored "llm_response" (.array [.record [("type", .str "text"), ("text", .str "adding")],
      .record [("type", .str "tool_use"), ("id", .str "t1"), ("name", .str "add")]]),
    .record [("kind", .str "tool_result"), ("data", .record [("call_id", .str "t1"),
      ("ok", .bool true), ("result", .str "4")])]]

def questionMessage : Lua := Shell.userMessage (.str "two and two?")

def callMessage : Lua :=
  Shell.assistantMessage (.array [.record [("type", .str "text"), ("text", .str "adding")],
    .record [("type", .str "tool_use"), ("id", .str "t1"), ("name", .str "add")]])

def resultMessage : Lua :=
  Shell.userMessage (.array [.record [("type", .str "tool_result"), ("tool_use_id", .str "t1"),
    ("content", .str "4")]])

theorem userMessage_ne (content : Lua) :
    (Shell.userMessage content).get "role" ≠ .str "assistant" := by
  rw [Shell.role_userMessage]
  simp

theorem assistantMessage_ne (content : Lua) :
    (Shell.assistantMessage content).get "role" ≠ .str "user" := by
  rw [Shell.role_assistantMessage]
  simp

theorem whole_question : Whole emptyObjects questionMessage where
  fields _ hblock := absurd hblock List.not_mem_nil
  user _ := ⟨rfl, .inl rfl⟩
  assistant h := absurd h (userMessage_ne _)

theorem whole_call : Whole emptyObjects callMessage where
  fields block hblock := by
    rcases List.mem_cons.mp hblock with rfl | hblock
    · exact ⟨fun _ => rfl, nofun, nofun⟩
    · obtain rfl := List.mem_singleton.mp hblock
      exact ⟨nofun, nofun, fun _ => ⟨rfl, _, rfl⟩⟩
  user h := absurd h (assistantMessage_ne _)
  assistant _ := ⟨rfl, .inr (.inl (List.cons_ne_nil _ _))⟩

theorem whole_result : Whole emptyObjects resultMessage where
  fields block hblock := by
    obtain rfl := List.mem_singleton.mp hblock
    exact ⟨nofun, fun _ => rfl, nofun⟩
  user _ := ⟨rfl, .inr rfl⟩
  assistant h := absurd h (userMessage_ne _)

theorem renderable_sum : Renderable emptyObjects [questionMessage, callMessage, resultMessage] where
  whole m hm := by
    rcases List.mem_cons.mp hm with rfl | hm
    · exact whole_question
    · rcases List.mem_cons.mp hm with rfl | hm
      · exact whole_call
      · obtain rfl := List.mem_singleton.mp hm
        exact whole_result
  once before m after hsplit hassistant id _ := by
    rcases before with - | ⟨first, - | ⟨second, before⟩⟩
    · obtain ⟨rfl, -⟩ := List.cons.inj hsplit
      exact absurd hassistant (userMessage_ne _)
    · obtain ⟨-, hsplit⟩ := List.cons.inj hsplit
      obtain ⟨-, rfl⟩ := List.cons.inj hsplit
      -- there is one result
      intro front a back hresult _ other hother
      have hlength := congrArg List.length (show [Lua.str "t1"] = front ++ a :: back from hresult)
      have hmem := List.length_pos_of_mem hother
      simp only [List.length_append, List.length_cons, List.length_nil] at hlength hmem
      omega
    · obtain ⟨-, hsplit⟩ := List.cons.inj hsplit
      obtain ⟨-, hsplit⟩ := List.cons.inj hsplit
      have hm : m ∈ [resultMessage] := hsplit ▸ List.mem_append_right _ List.mem_cons_self
      obtain rfl := List.mem_singleton.mp hm
      exact absurd hassistant (userMessage_ne _)

/-- A question, the call made for it and its result are kept, and an answer with
a call is given back. -/
theorem a_call_is_given_back :
    (∃ out, convertMessages emptyObjects
        (.array [questionMessage, callMessage, resultMessage]) .nil = .ok out ∧
      Keeps emptyObjects .nil [questionMessage, callMessage, resultMessage] out) ∧
    ∃ decoded, parse emptyObjects answeredRaw = .ok (.ok decoded) ∧
      GivesBack emptyObjects readsEmpty (messageOf (choiceOf emptyObjects answeredRaw)) decoded := by
  have hcontent : ∀ m ∈ [questionMessage, callMessage, resultMessage], HasContent m := by
    simp only [List.forall_mem_cons, List.not_mem_nil, false_implies, implies_true, and_true]
    refine ⟨.inl ⟨_, rfl⟩, .inr ⟨_, _, rfl, ?_⟩, .inr ⟨_, _, rfl, ?_⟩⟩ <;>
      simp [Lua.record, Lua.isTable]
  have hfold : foldMessages (fun _ => .ok "") sumEvents =
      .ok [questionMessage, callMessage, resultMessage] := rfl
  have hparse : parse emptyObjects answeredRaw = _ := rfl
  have hargs : ∀ tc ∈ callsOf (orEmpty ((messageOf (choiceOf emptyObjects answeredRaw)).get
      "tool_calls")), ArgumentsObject emptyObjects tc := by
    intro tc htc
    cases List.mem_singleton.mp htc
    exact .inr ⟨"{}", emptyTable, rfl, rfl, rfl⟩
  obtain ⟨hkeeps, hback⟩ := rendering_keeps_iff emptyObjects readsEmpty hfold hcontent none hparse
    hargs
  refine ⟨hkeeps.mpr renderable_sum, _, rfl, hback.mpr ⟨.inr ⟨"yes", rfl⟩, fun tc htc => ?_⟩⟩
  cases List.mem_singleton.mp htc
  exact ⟨emptyTable, "{}", rfl, rfl, "{}", rfl, rfl⟩

end AgentBlock.Llm.Openai
