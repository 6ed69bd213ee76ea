/-
AgentBlock/Llm/Readable.lean

Which answers of a provider are read without a raise: those in which everything
that is read of has fields, where it is there.

`Returns x` says that the computation `x` does not raise, and each reading
function has its `returns_…_iff`; `returns_readAnswer_iff` is that of the whole.
Where shapes are checked, an answer has to have its own as well.
-/
import AgentBlock.Llm.Port

namespace AgentBlock.Llm

open Except (bind_eq_ok)

/-! ### What returns -/

/-- A computation that does not raise. -/
def Returns {α : Type} (x : Except Lua α) : Prop := ∃ a, x = .ok a

section

variable {α β : Type} {v : Lua} {key : String}

@[simp] theorem returns_pure (a : α) : Returns (pure a : Except Lua α) := ⟨a, rfl⟩

@[simp] theorem returns_ok (a : α) : Returns (.ok a : Except Lua α) := ⟨a, rfl⟩

@[simp] theorem not_returns_error (raised : Lua) : ¬ Returns (.error raised : Except Lua α) := nofun

@[simp] theorem not_returns_throw (raised : Lua) : ¬ Returns (throw raised : Except Lua α) := nofun

theorem returns_bind (x : Except Lua α) (f : α → Except Lua β) :
    Returns (x >>= f) ↔ ∃ a, x = .ok a ∧ Returns (f a) := by
  cases x with
  | error raised => exact ⟨nofun, nofun⟩
  | ok a =>
      constructor
      · intro h
        exact ⟨a, rfl, h⟩
      · rintro ⟨b, hb, h⟩
        obtain rfl := Except.ok.inj hb
        exact h

/-- A computation after which it does not matter what was computed. -/
theorem returns_bind_of {P : Prop} {x : Except Lua α} {f : α → Except Lua β}
    (h : ∀ a, Returns (f a) ↔ P) : Returns (x >>= f) ↔ Returns x ∧ P := by
  rw [returns_bind]
  constructor
  · rintro ⟨a, ha, hf⟩
    exact ⟨⟨a, ha⟩, (h a).mp hf⟩
  · rintro ⟨⟨a, ha⟩, hP⟩
    exact ⟨a, ha, (h a).mpr hP⟩

theorem returns_seq (x : Except Lua α) (y : Except Lua β) :
    Returns (x >>= fun _ => y) ↔ Returns x ∧ Returns y := returns_bind_of fun _ => Iff.rfl

theorem returns_index_bind (f : Lua → Except Lua β) :
    Returns (v.index key >>= f) ↔ v.isIndexable = true ∧ Returns (f (v.get key)) := by
  rw [returns_bind]
  constructor
  · rintro ⟨u, hu, hf⟩
    obtain rfl := Lua.index_ok hu
    refine ⟨?_, hf⟩
    by_contra hv
    rw [Lua.index_of_not_isIndexable (by simpa using hv)] at hu
    cases hu
  · rintro ⟨hv, hf⟩
    exact ⟨_, Lua.index_of_isIndexable hv, hf⟩

theorem returns_forM (f : Lua → Except Lua Unit) (vs : List Lua) :
    Returns (vs.forM f) ↔ ∀ v ∈ vs, Returns (f v) := by
  induction vs with
  | nil => simp
  | cons v vs ih =>
      show Returns (f v >>= fun _ => vs.forM f) ↔ _
      rw [returns_seq, ih, List.forall_mem_cons]

end

/-! ### Which answers can be read -/

/-- `v or {}`. -/
def orEmpty (v : Lua) : Lua := v.orElse emptyTable

/-- The calls a message makes. -/
def callsOf (v : Lua) : List Lua :=
  match v with
  | .table items _ => items.takeWhile fun v => !v.isNil
  | _ => []

section

variable {α : Type} {host : Host} {v : Lua}

theorem elements_of_isIndexable (h : v.isIndexable = true) : elements v = .ok (callsOf v) := by
  cases v <;> first | rfl | cases h

theorem returns_elements_bind (f : List Lua → Except Lua α) :
    Returns (elements v >>= f) ↔ v.isIndexable = true ∧ Returns (f (callsOf v)) := by
  rw [returns_bind]
  constructor
  · rintro ⟨vs, hvs, hf⟩
    cases v with
    | table items fields => exact ⟨rfl, by cases hvs; exact hf⟩
    | str s => exact ⟨rfl, by cases hvs; exact hf⟩
    | _ => cases hvs
  · rintro ⟨hv, hf⟩
    exact ⟨_, elements_of_isIndexable hv, hf⟩

theorem returns_length : Returns (host.length v) ↔ v.isIndexable = true := by
  cases v <;> simp [Host.length, Lua.isIndexable]

end

/-- The error of a failure's body has fields, where there is one. -/
def ErrorIndexable (host : Host) (resp : Response) : Prop :=
  (orEmpty ((decodedBody host resp.body).get "error")).isIndexable = true

theorem returns_classifyError_iff (host : Host) (resp : Response) :
    Returns (classifyError host resp) ↔ ErrorIndexable host resp := by
  simp only [classifyError, returns_index_bind, returns_pure, and_true, and_self]
  rfl

namespace Anthropic

/-- What is read of an answer has fields, where it is there. -/
def Readable (raw : Lua) : Prop :=
  raw.isIndexable = true ∧ ((raw.get "content").truthy = true →
    (orEmpty (raw.get "usage")).isIndexable = true ∧
      (orEmpty ((orEmpty (raw.get "usage")).get "output_tokens_details")).isIndexable = true)

theorem returns_parse_iff {raw : Lua} (h : raw.truthy = true) :
    Returns (parse raw) ↔ Readable raw := by
  rw [parse, h]
  simp only [Bool.not_true, Bool.false_eq_true, if_false, returns_index_bind, Readable]
  refine and_congr_right fun _ => ?_
  rcases hc : (raw.get "content").truthy with - | -
  · simp
  · simp only [Bool.not_true, Bool.false_eq_true, if_false, returns_index_bind, returns_pure,
      and_true, true_implies]
    rfl

end Anthropic

namespace Openai

/-- A call and its function have fields. -/
def ReadableCall (toolCall : Lua) : Prop :=
  toolCall.isIndexable = true ∧ (orEmpty (toolCall.get "function")).isIndexable = true

theorem returns_toolUse_iff (host : Host) (i : Nat) (toolCall : Lua) :
    Returns (toolUse host i toolCall) ↔ ReadableCall toolCall := by
  simp only [toolUse, returns_index_bind]
  refine and_congr_right fun _ => ?_
  constructor
  · exact fun h => h.1
  · intro h
    refine ⟨h, ?_⟩
    rcases inputOf host _ with - | input
    · exact returns_pure _
    · exact returns_pure _

theorem returns_toolUses_iff (host : Host) (i : Nat) (toolCalls : List Lua) :
    Returns (toolUses host i toolCalls) ↔ ∀ tc ∈ toolCalls, ReadableCall tc := by
  induction toolCalls generalizing i with
  | nil => simp [toolUses]
  | cons tc rest ih =>
      rw [List.forall_mem_cons, ← returns_toolUse_iff host i, ← ih (i + 1)]
      simp only [toolUses, returns_bind, returns_pure, and_true]
      constructor
      · rintro ⟨block, hb, blocks, hbs⟩
        exact ⟨⟨block, hb⟩, blocks, hbs⟩
      · rintro ⟨⟨block, hb⟩, blocks, hbs⟩
        exact ⟨block, hb, blocks, hbs⟩

theorem returns_dumpCall_iff (toolCall : Lua) :
    Returns (dumpCall toolCall) ↔ ReadableCall toolCall := by
  simp only [dumpCall, returns_index_bind, returns_pure, and_true]
  rfl

theorem returns_dumpMessage_iff (host : Host) (content toolCalls : Lua) :
    Returns (dumpMessage host content toolCalls) ↔
      (content.truthy = true → content.asStr.isSome = true) ∧ toolCalls.isIndexable = true := by
  simp only [dumpMessage, returns_seq, returns_length, Host.lengthOrZero]
  cases content with
  | str s => simp [Lua.truthy, Lua.orElse, Lua.asStr, Host.length]
  | bool b => cases b <;> simp [Lua.truthy, Lua.orElse, Lua.asStr, Host.length]
  | _ => simp [Lua.truthy, Lua.orElse, Lua.asStr, Host.length]

/-- What is read of a message has fields, where it is there; and one that is
dumped has text for its content. -/
structure ReadableMessage (host : Host) (raw message : Lua) : Prop where
  fields : message.isIndexable = true
  toolCalls : (orEmpty (message.get "tool_calls")).isIndexable = true
  calls : ∀ tc ∈ callsOf (orEmpty (message.get "tool_calls")), ReadableCall tc
  usage : (orEmpty (raw.get "usage")).isIndexable = true
  outDetails :
    (orEmpty ((orEmpty (raw.get "usage")).get "completion_tokens_details")).isIndexable = true
  inDetails : (orEmpty ((orEmpty (raw.get "usage")).get "prompt_tokens_details")).isIndexable = true
  dumped : host.debugRaw = true → (message.get "content").truthy = true →
    (message.get "content").asStr.isSome = true

theorem returns_dump_iff (host : Host) (content toolCalls : Lua) :
    Returns (dump host content toolCalls) ↔
      (host.debugRaw = true → (content.truthy = true → content.asStr.isSome = true) ∧
        toolCalls.isIndexable = true ∧ ∀ tc ∈ callsOf toolCalls, ReadableCall tc) := by
  rw [dump]
  rcases host.debugRaw with - | -
  · simp
  · simp only [if_true, true_implies, returns_seq, returns_dumpMessage_iff, returns_elements_bind,
      returns_forM, returns_dumpCall_iff, and_assoc]
    exact ⟨fun ⟨h, _, hcalls⟩ => ⟨h, hcalls⟩, fun ⟨h, hi, hcalls⟩ => ⟨h, hi, hi, hcalls⟩⟩

theorem returns_usageOf_iff (raw : Lua) :
    Returns (usageOf raw) ↔ (orEmpty (raw.get "usage")).isIndexable = true ∧
      (orEmpty ((orEmpty (raw.get "usage")).get "completion_tokens_details")).isIndexable = true ∧
      (orEmpty ((orEmpty (raw.get "usage")).get "prompt_tokens_details")).isIndexable = true := by
  simp only [usageOf, returns_index_bind, returns_pure, and_true]
  rfl

theorem returns_parseMessage_iff (host : Host) (raw choice message : Lua) :
    Returns (parseMessage host raw choice message) ↔ ReadableMessage host raw message := by
  simp only [parseMessage, returns_index_bind, returns_seq, returns_dump_iff,
    returns_elements_bind]
  rw [returns_bind_of fun blocks => returns_bind_of fun usage => iff_true_intro (returns_pure _),
    returns_toolUses_iff, returns_usageOf_iff]
  constructor
  · rintro ⟨hfields, hdump, htools, hcalls, ⟨husage, hout, hin⟩, -⟩
    exact ⟨hfields, htools, hcalls, husage, hout, hin, fun hraw => (hdump hraw).1⟩
  · rintro ⟨hfields, htools, hcalls, husage, hout, hin, hdumped⟩
    exact ⟨hfields, fun hraw => ⟨hdumped hraw, htools, hcalls⟩, htools, hcalls,
      ⟨husage, hout, hin⟩, trivial⟩

/-- The choice that is read. -/
def choiceOf (host : Host) (raw : Lua) : Lua :=
  match host.length (raw.get "choices") with
  | .ok (_ + 1) => firstOf (raw.get "choices")
  | _ => .nil

/-- The message of a choice. -/
def messageOf (choice : Lua) : Lua := if choice.truthy then choice.get "message" else choice

/-- What is read of a choice has fields, where it is there. -/
structure ReadableChoice (host : Host) (raw choice : Lua) : Prop where
  fields : choice.truthy = true → choice.isIndexable = true
  message : (messageOf choice).truthy = true → ReadableMessage host raw (messageOf choice)

/-- What is read of an answer has fields, where it is there. -/
structure Readable (host : Host) (raw : Lua) : Prop where
  fields : raw.isIndexable = true
  choices : (raw.get "choices").truthy = true → (raw.get "choices").isIndexable = true
  choice : ReadableChoice host raw (choiceOf host raw)

theorem readableChoice_nil (host : Host) (raw : Lua) : ReadableChoice host raw .nil := ⟨nofun, nofun⟩

theorem returns_parseChoice_iff (host : Host) (raw choice : Lua) :
    Returns (parseChoice host raw choice) ↔ ReadableChoice host raw choice := by
  have hmessage : ∀ message : Lua,
      Returns (if !message.truthy then
          return .error "invalid OpenAI response: missing choices[0].message"
        else return .ok (← parseMessage host raw choice message) :
          Except Lua (Except String Decoded)) ↔
        (message.truthy = true → ReadableMessage host raw message) := by
    intro message
    rcases message.truthy with - | -
    · simp
    · simp only [Bool.not_true, Bool.false_eq_true, if_false, true_implies]
      rw [returns_bind_of fun _ => iff_true_intro (returns_pure _), and_true,
        returns_parseMessage_iff]
  rw [parseChoice, andIndex]
  rcases hc : choice.truthy with - | -
  · rw [if_neg Bool.false_ne_true, pure_bind, hmessage]
    have heq : messageOf choice = choice := by rw [messageOf, hc, if_neg Bool.false_ne_true]
    constructor
    · exact fun h => ⟨fun ht => absurd (hc.symm.trans ht) Bool.false_ne_true, heq.symm ▸ h⟩
    · exact fun h => heq ▸ h.message
  · rw [if_pos rfl, returns_index_bind, hmessage]
    have heq : messageOf choice = choice.get "message" := by rw [messageOf, hc, if_pos rfl]
    constructor
    · exact fun h => ⟨fun _ => h.1, heq.symm ▸ h.2⟩
    · exact fun h => ⟨h.fields hc, heq ▸ h.message⟩

/-- The first of the choices is read when there is one. -/
theorem choiceOf_eq {host : Host} {raw : Lua} {n : Nat}
    (h : host.lengthOrZero (raw.get "choices") = .ok n) :
    choiceOf host raw = if n = 0 then .nil else firstOf (raw.get "choices") := by
  rw [Host.lengthOrZero] at h
  rw [choiceOf]
  split at h
  · rw [h]
    rcases n with - | n
    · rfl
    · rfl
  · -- The length of what is there in the place of the choices is not taken.
    rename_i hfalsy
    obtain rfl := Except.ok.inj h
    rcases hc : raw.get "choices" with - | - | b | n | s | ⟨items, fields⟩ | t
    all_goals first | rfl | (rw [hc] at hfalsy; exact absurd rfl hfalsy)

theorem returns_lengthOrZero {host : Host} {v : Lua} :
    Returns (host.lengthOrZero v) ↔ (v.truthy = true → v.isIndexable = true) := by
  rw [Host.lengthOrZero]
  rcases v.truthy with - | -
  · simp
  · simp [returns_length]

theorem returns_parse_iff {host : Host} {raw : Lua} (h : raw.truthy = true) :
    Returns (parse host raw) ↔ Readable host raw := by
  rw [parse, andIndex, if_pos h, returns_index_bind, returns_bind]
  have hchoice : ∀ n, host.lengthOrZero (raw.get "choices") = .ok n →
      (Returns (if n = 0 then return .error "invalid OpenAI response: missing choices"
        else parseChoice host raw (firstOf (raw.get "choices")) :
          Except Lua (Except String Decoded)) ↔ ReadableChoice host raw (choiceOf host raw)) := by
    intro n hn
    rw [choiceOf_eq hn]
    split
    · exact iff_of_true (returns_pure _) (readableChoice_nil host raw)
    · exact returns_parseChoice_iff host raw _
  constructor
  · rintro ⟨hraw, n, hn, hrest⟩
    exact ⟨hraw, returns_lengthOrZero.mp ⟨n, hn⟩, (hchoice n hn).mp hrest⟩
  · rintro ⟨hraw, hindex, hread⟩
    obtain ⟨n, hn⟩ := (@returns_lengthOrZero host _).mpr hindex
    exact ⟨hraw, n, hn, (hchoice n hn).mpr hread⟩

end Openai

/-! ### Which results have their shape -/

/-- `#` of a table answers one of its borders: an index that holds something,
or none at all, before one that does not. -/
structure IsBorder (items : List Lua) (n : Nat) : Prop where
  le : n ≤ items.length
  before : 0 < n → (items.getD (n - 1) .nil).isNil = false
  after : (items.getD n .nil).isNil = true

theorem IsBorder.eq_length {items : List Lua} {n : Nat} (h : IsBorder items n)
    (hitems : ∀ v ∈ items, v.isNil = false) : n = items.length := by
  refine Nat.le_antisymm h.le (Nat.le_of_not_lt fun hlt => ?_)
  have hnil := h.after
  rw [List.getD_eq_getElem?_getD, List.getElem?_eq_getElem hlt, Option.getD_some,
    hitems _ (List.getElem_mem hlt)] at hnil
  cases hnil

theorem IsBorder.eq_nil {items : List Lua} (h : IsBorder items 0) :
    items.takeWhile (fun v => !v.isNil) = [] := by
  cases items with
  | nil => rfl
  | cons v items => simpa [List.takeWhile_cons] using h.after

/-- A string. -/
def IsText (v : Lua) : Prop := v.asStr.isSome = true

/-- A block that makes a call names it. -/
def ToolUseNamed (block : Lua) : Prop :=
  block.isTable = true → (block.get "type").eq (.str "tool_use") = true →
    IsText (block.get "id") ∧ IsText (block.get "name")

/-- The blocks of a content are tables, and those that make a call name it. -/
def ContentShaped (host : Host) (content : Lua) : Prop :=
  ∀ items fields, content = .table items fields →
    (∀ i < host.len items, (items.getD i .nil).isTable = true) ∧
      ∀ block ∈ items.takeWhile (fun v => !v.isNil), ToolUseNamed block

theorem returns_assertString_iff {path hint : String} {v : Lua} :
    Returns (assertString path v hint) ↔ IsText v := by
  rw [assertString, IsText]
  rcases v.asStr with - | s
  · simp
  · simp

theorem returns_assertOptional_iff {path hint : String} {v : Lua} :
    Returns (assertOptional path v hint) ↔ (v.isNil = false → IsText v) := by
  rw [assertOptional]
  rcases v.isNil with - | -
  · simp [returns_assertString_iff]
  · simp

theorem returns_assertToolUse_iff {block : Lua} :
    Returns (assertToolUse block) ↔ ToolUseNamed block := by
  rw [assertToolUse, ToolUseNamed]
  split
  · rename_i h
    rw [returns_seq, returns_assertString_iff, returns_assertString_iff]
    exact ⟨fun hb _ _ => hb, fun hb => hb h.1 h.2⟩
  · rename_i h
    exact iff_of_true (returns_pure _) fun hb ht => absurd ⟨hb, ht⟩ h

theorem returns_assertBlocks_iff (items : List Lua) (i n : Nat) :
    Returns (assertBlocks items (i + 1) n) ↔
      ∀ j < n, (items.getD (i + j) .nil).isTable = true := by
  induction n generalizing i with
  | zero => simp [assertBlocks]
  | succ n ih =>
      rw [assertBlocks, Nat.forall_lt_succ_left]
      simp only [Nat.add_sub_cancel, Nat.add_zero]
      rcases hb : (items.getD i .nil).isTable with - | -
      · simp
      · rw [Bool.not_true, if_neg Bool.false_ne_true, ih]
        simp only [true_and, Nat.add_right_comm, Nat.add_assoc]

theorem returns_assertDev_iff {host : Host} {result : LlmResult}
    (hcontent : result.content.isTable = true) :
    Returns (assertDev host result) ↔ (host.dev = true →
      ContentShaped host result.content ∧
        (result.finishReason.isNil = false → IsText result.finishReason) ∧
        (result.stopReason.isNil = false → IsText result.stopReason)) := by
  obtain ⟨items, fields, hc⟩ : ∃ items fields, result.content = .table items fields := by
    rcases hc : result.content with - | - | b | n | s | ⟨items, fields⟩ | t
    all_goals first | exact ⟨_, _, rfl⟩ | (rw [hc] at hcontent; cases hcontent)
  have hshaped : ContentShaped host result.content ↔
      (∀ i < host.len items, (items.getD i .nil).isTable = true) ∧
        ∀ block ∈ items.takeWhile (fun v => !v.isNil), ToolUseNamed block := by
    rw [ContentShaped, hc]
    constructor
    · exact fun h => h items fields rfl
    · rintro h _ _ heq
      obtain ⟨rfl, rfl⟩ := Lua.table.inj heq
      exact h
  rw [assertDev, hshaped]
  rcases host.dev with - | -
  · simp
  · simp only [if_true, true_implies, assertResult, returns_seq, hc, assertContent,
      returns_assertOptional_iff, returns_elements_bind, returns_forM, returns_assertToolUse_iff]
    have hblocks := returns_assertBlocks_iff items 0 (host.len items)
    simp only [Nat.zero_add] at hblocks
    rw [hblocks]
    constructor
    · rintro ⟨⟨hb, hf, hs⟩, -, hcalls⟩
      exact ⟨⟨hb, hcalls⟩, hf, hs⟩
    · rintro ⟨⟨hb, hcalls⟩, hf, hs⟩
      exact ⟨⟨hb, hf, hs⟩, rfl, hcalls⟩

/-! ### Which answers become a result or an error -/

theorem isTable_responseBlocks (host : Host) {content : Lua} (h : content.isTable = true) :
    (responseBlocks host content).isTable = true := by
  cases content with
  | table items fields =>
      rw [responseBlocks]
      split
      · rfl
      · rfl
  | _ => cases h

/-- Making an empty array of a content with nothing in it changes nothing about
its blocks. -/
theorem contentShaped_responseBlocks {host : Host} (hlen : ∀ items, IsBorder items (host.len items))
    (content : Lua) :
    ContentShaped host (responseBlocks host content) ↔ ContentShaped host content := by
  cases content with
  | table items fields =>
      rw [responseBlocks]
      split
      · rename_i h0
        refine iff_of_true ?_ ?_
        · rintro _ _ heq
          obtain ⟨rfl, -⟩ := Lua.table.inj heq
          have hn := Nat.le_zero.mp (hlen []).le
          exact ⟨fun i hi => absurd (hn ▸ hi) (Nat.not_lt_zero i), nofun⟩
        · rintro _ _ heq
          obtain ⟨rfl, -⟩ := Lua.table.inj heq
          refine ⟨fun i hi => absurd (h0 ▸ hi) (Nat.not_lt_zero i), ?_⟩
          have hborder : IsBorder items 0 := h0 ▸ hlen items
          rw [hborder.eq_nil]
          exact nofun
      · rfl
  | _ => rfl

/-- The shape an Anthropic answer has of itself. -/
structure Anthropic.Shaped (host : Host) (raw : Lua) : Prop where
  content : ContentShaped host (raw.get "content")
  stopReason : (raw.get "stop_reason").isNil = false → IsText (raw.get "stop_reason")

/-- A call of an OpenAI answer has a text for its id and its name, where it has
them. -/
structure Openai.NamedCall (toolCall : Lua) : Prop where
  id : (toolCall.get "id").isNil = false → IsText (toolCall.get "id")
  name : ((orEmpty (toolCall.get "function")).get "name").truthy = true →
    IsText ((orEmpty (toolCall.get "function")).get "name")

/-- An answer is read without a raise; its shape matters where it is checked. -/
def Port.Readable (host : Host) : Port → Lua → Prop
  | anthropic, raw =>
      Anthropic.Readable raw ∧
        (host.dev = true → (raw.get "content").isTable = true → Anthropic.Shaped host raw)
  | openai, raw =>
      Openai.Readable host raw ∧
        (host.dev = true →
          (Openai.messageOf (Openai.choiceOf host raw)).truthy = true →
            ∀ tc ∈ callsOf (orEmpty ((Openai.messageOf (Openai.choiceOf host raw)).get "tool_calls")),
              Openai.NamedCall tc)

section

variable {host : Host} {raw : Lua}

/-- What an Anthropic answer that can be read is read as. -/
theorem Anthropic.parse_cases (h : raw.truthy = true) (hread : Readable raw) :
    (∃ perr, parse raw = .ok (.error perr) ∧ (raw.get "content").isTable = false) ∨
      ∃ result, parse raw = .ok (.ok result) ∧ result.content = raw.get "content" ∧
        result.stopReason = raw.get "stop_reason" ∧ result.finishReason = .nil := by
  obtain ⟨hraw, hcontent⟩ := hread
  rw [parse, h]
  simp only [Bool.not_true, Bool.false_eq_true, if_false, Lua.index_of_isIndexable hraw]
  rcases hc : (raw.get "content").truthy with - | -
  · left
    refine ⟨_, by simp only [bind, Except.bind, hc]; rfl, ?_⟩
    rcases hcon : raw.get "content" with - | - | b | n | s | ⟨items, fields⟩ | t
    all_goals first | rfl | (rw [hcon] at hc; cases hc)
  · right
    obtain ⟨husage, hdetails⟩ := hcontent hc
    simp only [orEmpty] at husage hdetails
    refine ⟨_, by
      simp only [bind, Except.bind, hc, Bool.not_true, Bool.false_eq_true, if_false,
        Lua.index_of_isIndexable husage, Lua.index_of_isIndexable hdetails]
      rfl, rfl, rfl, rfl⟩

end

theorem isText_callId {i : Nat} {toolCall : Lua} :
    IsText (Openai.callId i toolCall) ↔
      ((toolCall.get "id").isNil = false → IsText (toolCall.get "id")) := by
  rw [Openai.callId]
  split
  · rename_i h
    refine iff_of_true rfl fun hnil => ?_
    rcases h with h | h
    · rw [h] at hnil
      cases hnil
    · rw [Lua.eq_str.mp h]
      rfl
  · rename_i h
    exact ⟨fun ht _ => ht, fun ht => ht (by simpa using fun hn => h (.inl hn))⟩

theorem isText_orElse {v : Lua} {s : String} :
    IsText (v.orElse (.str s)) ↔ (v.truthy = true → IsText v) := by
  rw [Lua.orElse]
  rcases v.truthy with - | -
  · exact iff_of_true rfl nofun
  · simp

namespace Openai

section

variable {host : Host}

/-- What names the call of a block. -/
theorem toolUse_spec {i : Nat} {toolCall block : Lua} (h : toolUse host i toolCall = .ok block) :
    block.isTable = true ∧ (block.get "type").eq (.str "tool_use") = true ∧
      block.get "id" = callId i toolCall ∧
      block.get "name" = ((orEmpty (toolCall.get "function")).get "name").orElse (.str "") := by
  simp only [toolUse, bind_eq_ok] at h
  obtain ⟨fn, hfn, rawArgs, -, h⟩ := h
  obtain rfl := Lua.index_ok hfn
  split at h
  all_goals
    obtain rfl := Except.ok.inj h
    refine ⟨rfl, ?_, ?_, ?_⟩
    · rw [Lua.get_record (by simp)]
      rfl
    · rw [Lua.get_record (by simp)]
      rfl
    · rw [Lua.get_record (by simp)]
      rfl

theorem toolUseNamed_iff {i : Nat} {toolCall block : Lua} (h : toolUse host i toolCall = .ok block) :
    ToolUseNamed block ↔ NamedCall toolCall := by
  obtain ⟨htable, htype, hid, hname⟩ := toolUse_spec h
  rw [ToolUseNamed, hid, hname, isText_callId, isText_orElse]
  constructor
  · intro hb
    exact ⟨(hb htable htype).1, (hb htable htype).2⟩
  · rintro ⟨hb, hn⟩ - -
    exact ⟨hb, hn⟩

theorem toolUses_spec {i : Nat} {toolCalls blocks : List Lua}
    (h : toolUses host i toolCalls = .ok blocks) :
    (∀ block ∈ blocks, block.isTable = true) ∧
      ((∀ block ∈ blocks, ToolUseNamed block) ↔ ∀ tc ∈ toolCalls, NamedCall tc) := by
  induction toolCalls generalizing i blocks with
  | nil =>
      obtain rfl := Except.ok.inj h
      simp
  | cons tc rest ih =>
      simp only [toolUses, bind_eq_ok] at h
      obtain ⟨block, hb, blocks', hbs, h⟩ := h
      obtain rfl := Except.ok.inj h
      obtain ⟨htables, hnamed⟩ := ih hbs
      simp only [List.forall_mem_cons, hnamed, toolUseNamed_iff hb, (toolUse_spec hb).1, true_and,
        and_true]
      exact htables

/-- A block that is not of a call is a table, and makes none. -/
theorem proseOf_spec (message : Lua) :
    ∀ block ∈ proseOf message, block.isTable = true ∧ ToolUseNamed block := by
  intro block hb
  rw [proseOf] at hb
  rcases reasoningAndText message with ⟨reasoning, text⟩
  rcases List.mem_append.mp hb with hb | hb
  · obtain ⟨s, -, rfl⟩ := Option.map_eq_some_iff.mp (Option.mem_toList.mp hb)
    refine ⟨rfl, fun _ htype => ?_⟩
    rw [Lua.get_record (by simp)] at htype
    simp [Lua.lookup, Lua.eq] at htype
  · obtain ⟨-, hb⟩ := List.mem_ite_nil_right.mp hb
    obtain rfl := List.mem_singleton.mp hb
    refine ⟨rfl, fun _ htype => ?_⟩
    rw [Lua.get_record (by simp)] at htype
    simp [Lua.lookup, Lua.eq] at htype

end

end Openai

section

variable {host : Host} {raw : Lua}

theorem Openai.parseMessage_spec {choice message : Lua} {result : Decoded}
    (h : parseMessage host raw choice message = .ok result) :
    (∃ blocks, toolUses host 1 (callsOf (orEmpty (message.get "tool_calls"))) = .ok blocks ∧
        result.content = .array (proseOf message ++ blocks)) ∧
      IsText result.stopReason ∧ (result.finishReason.isNil = false → IsText result.finishReason) := by
  simp only [parseMessage, bind_eq_ok] at h
  obtain ⟨calls, hcalls, -, -, vs, hvs, blocks, hblocks, usage, -, h⟩ := h
  obtain rfl := Lua.index_ok hcalls
  have helements : Returns (elements (orEmpty (message.get "tool_calls")) >>=
      fun vs => (.ok vs : Except Lua (List Lua))) := by
    rw [orEmpty, hvs]
    exact ⟨vs, rfl⟩
  have hindex := (returns_elements_bind _).mp helements |>.1
  rw [orEmpty] at hindex
  rw [elements_of_isIndexable hindex] at hvs
  obtain rfl := Except.ok.inj hvs
  obtain rfl := Except.ok.inj h
  refine ⟨⟨blocks, hblocks, rfl⟩, rfl, ?_⟩
  dsimp only
  cases choice.get "finish_reason" <;> simp [Lua.isNil, IsText, Lua.asStr]

/-- What an OpenAI answer is read as, by whether there is a message. -/
theorem Openai.parse_spec (h : raw.truthy = true) {x : Except String Decoded}
    (hx : parse host raw = .ok x) :
    match x with
    | .error _ => (messageOf (choiceOf host raw)).truthy = false
    | .ok result => (messageOf (choiceOf host raw)).truthy = true ∧
        parseMessage host raw (choiceOf host raw) (messageOf (choiceOf host raw)) = .ok result := by
  simp only [parse, bind_eq_ok] at hx
  obtain ⟨choices, hc, n, hn, hx⟩ := hx
  rw [andIndex, if_pos h] at hc
  obtain rfl := Lua.index_ok hc
  rw [choiceOf_eq hn]
  by_cases h0 : n = 0
  · rw [if_pos h0] at hx ⊢
    obtain rfl := Except.ok.inj hx
    rfl
  · rw [if_neg h0] at hx ⊢
    simp only [parseChoice, bind_eq_ok] at hx
    obtain ⟨message, hm, hx⟩ := hx
    have hmessage : message = messageOf (firstOf (raw.get "choices")) := by
      rw [andIndex] at hm
      rw [messageOf]
      split at hm
      · rename_i ht
        rw [if_pos ht]
        exact Lua.index_ok hm
      · rename_i ht
        rw [if_neg ht]
        exact (Except.ok.inj hm).symm
    rw [← hmessage]
    rcases ht : message.truthy with - | -
    · rw [ht] at hx
      obtain rfl := Except.ok.inj hx
      rfl
    · rw [ht, Bool.not_true, if_neg Bool.false_ne_true, bind_eq_ok] at hx
      obtain ⟨result, hresult, hx⟩ := hx
      obtain rfl := Except.ok.inj hx
      exact ⟨rfl, hresult⟩

end

section

variable {host : Host} {port : Port} {raw : Lua} {seen : Seen}

theorem returns_port_parse_iff (h : raw.truthy = true) :
    Returns (port.parse host raw) ↔
      match port with
      | .anthropic => Anthropic.Readable raw
      | .openai => Openai.Readable host raw := by
  cases port with
  | anthropic => exact Anthropic.returns_parse_iff h
  | openai => exact Openai.returns_parse_iff h

/-- What is checked of a result, where it is checked. -/
def Shaped (host : Host) (result : Decoded) : Prop :=
  ContentShaped host result.content ∧
    (result.finishReason.isNil = false → IsText result.finishReason) ∧
    (result.stopReason.isNil = false → IsText result.stopReason)

/-- An answer that was parsed is read when what it was parsed to has its
shape. -/
theorem returns_readAnswer_iff_shaped (hlen : ∀ items, IsBorder items (host.len items))
    {x : Except String Decoded} (hx : port.parse host raw = .ok x) :
    Returns (readAnswer host port raw seen) ↔
      ∀ result, x = .ok result → host.dev = true → result.content.isTable = true →
        Shaped host result := by
  rw [readAnswer, hx]
  show Returns (mapParsed host port seen x) ↔ _
  rcases x with perr | result
  · exact iff_of_true (returns_pure _) fun _ h => nomatch h
  · simp only [Except.ok.injEq, forall_eq', mapParsed]
    rcases hc : result.content.isTable with - | -
    · exact iff_of_true (returns_pure _) fun _ h => nomatch h
    · simp only [Bool.not_true, Bool.false_eq_true, if_false, true_implies, returns_seq,
        returns_pure, and_true]
      have htable : (mapped host port result).content.isTable = true :=
        isTable_responseBlocks host hc
      rw [returns_assertDev_iff htable, Shaped,
        ← contentShaped_responseBlocks hlen result.content]
      rfl

/-- The blocks of an OpenAI answer have their shape when its calls are named. -/
theorem Openai.shaped_iff (hlen : ∀ items, IsBorder items (host.len items)) {choice message : Lua}
    {result : Decoded} (h : parseMessage host raw choice message = .ok result) :
    (result.content.isTable = true → Shaped host result) ↔
      ∀ tc ∈ callsOf (orEmpty (message.get "tool_calls")), NamedCall tc := by
  obtain ⟨⟨blocks, hblocks, hcontent⟩, hstop, hfinish⟩ := parseMessage_spec h
  obtain ⟨htables, hnamed⟩ := toolUses_spec hblocks
  have htable : ∀ block ∈ proseOf message ++ blocks, block.isTable = true := by
    intro block hb
    rcases List.mem_append.mp hb with hb | hb
    · exact (proseOf_spec message block hb).1
    · exact htables block hb
  have hnil : ∀ block ∈ proseOf message ++ blocks, block.isNil = false := by
    intro block hb
    have ht := htable block hb
    cases block <;> first | rfl | cases ht
  have hwhile : (proseOf message ++ blocks).takeWhile (fun v => !v.isNil) =
      proseOf message ++ blocks :=
    List.takeWhile_eq_self_iff.mpr fun block hb => by rw [hnil block hb]; rfl
  rw [← hnamed, Shaped, hcontent]
  constructor
  · intro hshaped block hb
    obtain ⟨-, hall⟩ := (hshaped rfl).1 _ _ rfl
    rw [hwhile] at hall
    exact hall block (List.mem_append_right _ hb)
  · rintro hall -
    refine ⟨?_, hfinish, fun _ => hstop⟩
    rintro items fields heq
    obtain ⟨rfl, rfl⟩ := Lua.table.inj heq
    rw [(hlen _).eq_length hnil, hwhile]
    refine ⟨fun i hi => ?_, fun block hb => ?_⟩
    · rw [List.getD_eq_getElem?_getD, List.getElem?_eq_getElem hi, Option.getD_some]
      exact htable _ (List.getElem_mem hi)
    · rcases List.mem_append.mp hb with hb | hb
      · exact (proseOf_spec message block hb).2
      · exact hall block hb

/-- Which answers are read without a raise. -/
theorem returns_readAnswer_iff (hlen : ∀ items, IsBorder items (host.len items))
    (h : raw.truthy = true) :
    Returns (readAnswer host port raw seen) ↔ port.Readable host raw := by
  have hparse := @returns_port_parse_iff host port raw h
  constructor
  · intro hread
    obtain ⟨x, hx⟩ : Returns (port.parse host raw) := by
      rw [readAnswer, returns_bind] at hread
      obtain ⟨x, hx, -⟩ := hread
      exact ⟨x, hx⟩
    rw [returns_readAnswer_iff_shaped hlen hx] at hread
    cases port with
    | anthropic =>
        have hreadable := hparse.mp ⟨x, hx⟩
        refine ⟨hreadable, fun hdev htable => ?_⟩
        rcases Anthropic.parse_cases h hreadable with ⟨perr, -, hfalse⟩ | ⟨result, hresult, hc, hs, -⟩
        · rw [hfalse] at htable
          cases htable
        · obtain ⟨hcontent, -, hstop⟩ := hread result
            (Except.ok.inj (hx.symm.trans hresult)) hdev (hc ▸ htable)
          exact ⟨hc ▸ hcontent, hs ▸ hstop⟩
    | openai =>
        refine ⟨hparse.mp ⟨x, hx⟩, fun hdev hmessage => ?_⟩
        have hspec := Openai.parse_spec h hx
        rcases x with perr | result
        · exact absurd (hspec.symm.trans hmessage) Bool.false_ne_true
        · exact (Openai.shaped_iff hlen hspec.2).mp (hread result rfl hdev)
  · intro hread
    cases port with
    | anthropic =>
        obtain ⟨hreadable, hshaped⟩ := hread
        -- a parse error is answered as it is, with nothing further read
        rcases Anthropic.parse_cases h hreadable with ⟨perr, hx, -⟩ | ⟨result, hx, hc, hs, hf⟩
        · exact (@returns_readAnswer_iff_shaped host .anthropic raw seen hlen _ hx).mpr
            fun _ heq => nomatch heq
        · refine (@returns_readAnswer_iff_shaped host .anthropic raw seen hlen _ hx).mpr ?_
          rintro _ heq hdev htable
          obtain rfl := Except.ok.inj heq
          obtain ⟨hcontent, hstop⟩ := hshaped hdev (hc ▸ htable)
          refine ⟨hc ▸ hcontent, ?_, hs ▸ hstop⟩
          rw [hf]
          exact nofun
    | openai =>
        obtain ⟨hreadable, hnamed⟩ := hread
        obtain ⟨x, hx⟩ := hparse.mpr hreadable
        refine (returns_readAnswer_iff_shaped hlen hx).mpr ?_
        rintro result rfl hdev
        have hspec := Openai.parse_spec h hx
        exact (Openai.shaped_iff hlen hspec.2).mpr (hnamed hdev hspec.1)

end

end AgentBlock.Llm
