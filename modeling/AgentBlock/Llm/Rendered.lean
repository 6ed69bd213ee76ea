/-
AgentBlock/Llm/Rendered.lean

What the OpenAI rendering keeps of a conversation.

A message becomes a group of messages, and the groups follow one another.  What
the message says, its texts and its results, is what the messages of its group
carry, and its calls are theirs (`Renders`).

Main results:

* `converted_iff` — what one message becomes;
* `renders_of_whole` — of a message with nothing to leave out (`Whole`), a group
  that renders it.
-/
import AgentBlock.Llm.Convert
import AgentBlock.Llm.Readable
import AgentBlock.Shell.OneHandle
import Mathlib.Algebra.GroupWithZero.Nat

namespace AgentBlock.Llm.Openai

open Except (bind_eq_ok)
open Shell (blocksOf callIds SameId ExactlyOne foldMessages)

/-! ### What a message says -/

/-- One thing a message says. -/
inductive Saying where
  | text (s : String)
  | result (id : Lua) (s : String)

/-- The text in a field; none is an empty one, and what is no text has none. -/
def fieldText (v : Lua) : Option String := (v.orElse (.str "")).asStr

def blockSayings (block : Lua) : Option (List Saying) :=
  if isType "text" block then (fieldText (block.get "text")).map fun s => [.text s]
  else if isType "tool_result" block then
    (fieldText (block.get "content")).map fun s => [.result (block.get "tool_use_id") s]
  else some []

def blocksSayings : List Lua → Option (List Saying)
  | [] => some []
  | block :: rest => do
      let said ← blockSayings block
      let others ← blocksSayings rest
      some (said ++ others)

/-- What a content says, in order. -/
def sayings : Lua → Option (List Saying)
  | .str s => some [.text s]
  | .table blocks _ => blocksSayings blocks
  | _ => some []

def usesOf (content : Lua) : List Lua := (blocksOf content).filter (isType "tool_use")

def resultsOf (content : Lua) : List Lua := (blocksOf content).filter (isType "tool_result")

/-! ### What is kept -/

section

variable (host : Host)

/-- What a message on the wire carries of one said in a role: a result, in a
message of its own, or texts, one to a line. -/
def Carries (role : Lua) (o : OaiMessage) (p : List Saying) : Prop :=
  (o.role = .str "tool" ∧ ∃ s, p = [.result o.toolCallId s] ∧ o.content = .str s) ∨
    (o.role = role ∧ ∃ ts : List String, p = ts.map .text ∧
      (o.content = .str ("\n".intercalate ts) ∨ ts = [] ∧ o.content = .nil))

/-- The same call: id, name and the encoded arguments. -/
def SameCall (block : Lua) (call : OaiToolCall) : Prop :=
  call.id = block.get "id" ∧ (∃ name, block.get "name" = .str name ∧ call.name = .str name) ∧
    host.encode ((block.get "input").orElse emptyTable) = .ok call.arguments

def callsOfGroup (group : List OaiMessage) : List OaiToolCall :=
  group.flatMap fun o => o.toolCalls.getD []

/-- A group carries what the message says and calls, each once and in order; a
message without results is one message. -/
structure Renders (m : Lua) (group : List OaiMessage) : Prop where
  said : ∃ pieces, List.Forall₂ (Carries (m.get "role")) group pieces ∧
    sayings (m.get "content") = some pieces.flatten
  called : List.Forall₂ (SameCall host) (usesOf (m.get "content")) (callsOfGroup group)
  whole : resultsOf (m.get "content") = [] → ∃ o, group = [o] ∧ o.role = m.get "role"

def isTool (o : OaiMessage) : Bool := o.role.eq (.str "tool")

/-- A turn of a transcript shows a message: its role's side, and its text after
a label. -/
def Shows (o : OaiMessage) (s : String) : Prop := ∀ c, o.content = .str c → ∃ label, s = label ++ c

/-- A transcript alternates, and its turns show the messages in order. -/
structure Alternates (messages : List OaiMessage) (lines : List Line) : Prop where
  sides : ∀ line ∈ lines, line.role = .str "user" ∨ line.role = .str "assistant"
  turns : lines.IsChain fun a b => a.role ≠ b.role
  shown : ∃ parts : List (List String),
    List.Forall₂ (fun line part => line.content = "\n\n".intercalate part) lines parts ∧
      List.Forall₂ Shows messages parts.flatten

/-- The rendering keeps the conversation. -/
structure Keeps (system : Lua) (messages : List Lua) (out : List OaiMessage) : Prop where
  answered : ∀ before o after, out = before ++ o :: after → o.role = .str "assistant" →
    ∀ calls, o.toolCalls = some calls → ∀ call ∈ calls, call.id.isNil = false →
    ExactlyOne (fun r => SameId r.toolCallId call.id) (after.takeWhile isTool)
  inOrder : ∃ groups, out = systemMessages system ++ groups.flatten ∧
    List.Forall₂ (Renders host) messages groups
  filled : ∀ o ∈ out, o.role = .str "assistant" →
    o.content.isNil = false ∨ ∃ call calls, o.toolCalls = some (call :: calls)
  flat : ∃ lines, flattenForStrictAlternation host out = .ok lines ∧ Alternates out lines

/-! ### What can be kept -/

/-- A content that is a string or an array of blocks. -/
def HasContent (m : Lua) : Prop :=
  (∃ s, m.get "content" = .str s) ∨
    ∃ blocks fields, m.get "content" = .table blocks fields ∧ ∀ block ∈ blocks, block.isTable = true

/-- Not two of the elements are so. -/
def AtMostOne {α : Type} (p : α → Prop) (l : List α) : Prop :=
  ∀ before a after, l = before ++ a :: after → p a → ∀ other ∈ before ++ after, ¬p other

/-- The ids of the results in the messages up to the next without any. -/
def resultIds (messages : List Lua) : List Lua :=
  (messages.takeWhile fun m => !(resultsOf (m.get "content")).isEmpty).flatMap fun m =>
    (resultsOf (m.get "content")).map fun block => block.get "tool_use_id"

/-- What the fields of a block have to be. -/
structure FieldsRead (block : Lua) : Prop where
  text : isType "text" block = true → (fieldText (block.get "text")).isSome = true
  result : isType "tool_result" block = true → (fieldText (block.get "content")).isSome = true
  call : isType "tool_use" block = true → (block.get "name").asStr.isSome = true ∧
    Returns (host.encode ((block.get "input").orElse emptyTable))

/-- A message with nothing the rendering leaves out: a user calls no tools and
says nothing beside results, and an assistant gives no results and says or calls
something. -/
structure Whole (m : Lua) : Prop where
  fields : ∀ block ∈ blocksOf (m.get "content"), FieldsRead host block
  user : m.get "role" = .str "user" → usesOf (m.get "content") = [] ∧
    (resultsOf (m.get "content") = [] ∨
      (blocksOf (m.get "content")).filter (isType "text") = [])
  assistant : m.get "role" = .str "assistant" → resultsOf (m.get "content") = [] ∧
    ((∃ s, m.get "content" = .str s) ∨ (blocksOf (m.get "content")).filter (isType "text") ≠ [] ∨
      usesOf (m.get "content") ≠ [])

/-- A message list that can be kept: each message can, and no call is answered
twice. -/
structure Renderable (messages : List Lua) : Prop where
  whole : ∀ m ∈ messages, Whole host m
  once : ∀ before m after, messages = before ++ m :: after → m.get "role" = .str "assistant" →
    ∀ id ∈ callIds (m.get "content"), AtMostOne (fun a => SameId a id) (resultIds after)

end

/-! ### Blocks, converted -/

section

variable {host : Host} {blocks : List Lua}

theorem index_of_isTable {v : Lua} (h : v.isTable = true) (key : String) :
    v.index key = .ok (v.get key) := by
  cases v <;> first | rfl | cases h

theorem hasToolResult_eq (hb : ∀ block ∈ blocks, block.isTable = true) :
    hasToolResult blocks = .ok (blocks.any (isType "tool_result")) := by
  induction blocks with
  | nil => rfl
  | cons block rest ih =>
      have hrest := ih fun b h => hb b (List.mem_cons_of_mem _ h)
      simp only [hasToolResult, index_of_isTable (hb block List.mem_cons_self), hrest, List.any_cons,
        isType, bind, Except.bind]
      split
      · rename_i htype
        rw [htype]
        rfl
      · rename_i htype
        rw [Bool.eq_false_of_not_eq_true htype]
        rfl

/-- The message of a result. -/
def toolMessage (host : Host) (block : Lua) : OaiMessage where
  role := .str "tool"
  toolCallId := block.get "tool_use_id"
  content := .str (host.tostring ((block.get "content").orElse (.str "")))

theorem toolMessages_eq (hb : ∀ block ∈ blocks, block.isTable = true) :
    toolMessages host blocks =
      .ok ((blocks.filter (isType "tool_result")).map (toolMessage host)) := by
  induction blocks with
  | nil => rfl
  | cons block rest ih =>
      have hrest := ih fun b h => hb b (List.mem_cons_of_mem _ h)
      simp only [toolMessages, index_of_isTable (hb block List.mem_cons_self), hrest, bind,
        Except.bind]
      by_cases htype : isType "tool_result" block = true
      · rw [if_pos (by exact htype), List.filter_cons_of_pos htype]
        rfl
      · rw [if_neg (by exact htype), List.filter_cons_of_neg htype]
        rfl

theorem userParts_eq (hb : ∀ block ∈ blocks, block.isTable = true) :
    userParts blocks =
      .ok ((blocks.filter (isType "text")).map fun block => (block.get "text").orElse (.str "")) := by
  induction blocks with
  | nil => rfl
  | cons block rest ih =>
      have hrest := ih fun b h => hb b (List.mem_cons_of_mem _ h)
      simp only [userParts, index_of_isTable (hb block List.mem_cons_self), hrest, bind,
        Except.bind]
      by_cases htype : isType "text" block = true
      · rw [if_pos (by exact htype), List.filter_cons_of_pos htype]
        rfl
      · rw [if_neg (by exact htype), List.filter_cons_of_neg htype]
        rfl

/-- The call of a block, whatever its name is. -/
def CallOf (host : Host) (block : Lua) (call : OaiToolCall) : Prop :=
  call.id = block.get "id" ∧ call.name = block.get "name" ∧
    host.encode ((block.get "input").orElse emptyTable) = .ok call.arguments

theorem assistantParts_ok (hb : ∀ block ∈ blocks, block.isTable = true) {texts : List Lua}
    {calls : List OaiToolCall} (h : assistantParts host blocks = .ok (texts, calls)) :
    texts = (blocks.filter (isType "text")).map (fun block => (block.get "text").orElse (.str "")) ∧
      List.Forall₂ (CallOf host) (blocks.filter (isType "tool_use")) calls := by
  induction blocks generalizing texts calls with
  | nil =>
      cases h
      exact ⟨rfl, .nil⟩
  | cons block rest ih =>
      have htable := hb block List.mem_cons_self
      have hrest := fun b h => hb b (List.mem_cons_of_mem _ h)
      simp only [assistantParts, index_of_isTable htable, bind_eq_ok] at h
      obtain ⟨type, htype, h⟩ := h
      obtain rfl := Except.ok.inj htype
      split at h
      · rename_i htext
        simp only [bind_eq_ok] at h
        obtain ⟨text, ht, ⟨texts', calls'⟩, hparts, h⟩ := h
        obtain rfl := Except.ok.inj ht
        obtain ⟨rfl, hcalls⟩ := ih hrest hparts
        cases h
        have huse : isType "tool_use" block = false := by
          rw [isType, Lua.eq_str.mp htext]
          rfl
        have htext' : isType "text" block = true := htext
        rw [List.filter_cons_of_pos htext', List.filter_cons_of_neg (by simp [huse])]
        exact ⟨rfl, hcalls⟩
      split at h
      · rename_i htext huse
        simp only [bind_eq_ok] at h
        obtain ⟨arguments, hargs, ⟨texts', calls'⟩, hparts, h⟩ := h
        obtain ⟨rfl, hcalls⟩ := ih hrest hparts
        cases h
        have huse' : isType "tool_use" block = true := huse
        rw [List.filter_cons_of_neg (by exact htext), List.filter_cons_of_pos huse']
        exact ⟨rfl, .cons ⟨rfl, rfl, hargs⟩ hcalls⟩
      · rename_i htext huse
        obtain ⟨rfl, hcalls⟩ := ih hrest h
        rw [List.filter_cons_of_neg (by exact htext), List.filter_cons_of_neg (by exact huse)]
        exact ⟨rfl, hcalls⟩

theorem returns_assistantParts (hb : ∀ block ∈ blocks, block.isTable = true)
    (h : ∀ block ∈ blocks, isType "tool_use" block = true →
      Returns (host.encode ((block.get "input").orElse emptyTable))) :
    Returns (assistantParts host blocks) := by
  induction blocks with
  | nil => exact ⟨_, rfl⟩
  | cons block rest ih =>
      obtain ⟨⟨texts, calls⟩, hrest⟩ := ih (fun b h' => hb b (List.mem_cons_of_mem _ h'))
        fun b h' => h b (List.mem_cons_of_mem _ h')
      have htable := hb block List.mem_cons_self
      simp only [assistantParts, index_of_isTable htable, hrest, bind, Except.bind]
      split
      · exact ⟨_, rfl⟩
      split
      · rename_i huse
        obtain ⟨arguments, hargs⟩ := h block List.mem_cons_self huse
        rw [hargs]
        exact ⟨_, rfl⟩
      · exact ⟨_, rfl⟩

theorem concat_str (ss : List String) (sep : String) :
    concat host (ss.map .str) sep = .ok (sep.intercalate ss) := by
  have hjoined (i : Nat) : joinedFrom host i (ss.map .str) = .ok ss := by
    induction ss generalizing i with
    | nil => rfl
    | cons s rest ih =>
        simp only [List.map_cons, joinedFrom, joined, ih, bind, Except.bind]
        rfl
  simp only [concat, hjoined, bind, Except.bind]
  rfl

end

/-! ### What is said, counted -/

def Saying.isResult : Saying → Bool
  | .text _ => false
  | .result _ _ => true

def Saying.isText : Saying → Bool
  | .text _ => true
  | .result _ _ => false

theorem not_result_of_text {block : Lua} (h : isType "text" block = true) :
    isType "tool_result" block = false := by
  rw [isType, Lua.eq_str.mp h]
  rfl

/-- What blocks say: a text for each text block and a result for each result. -/
theorem blocksSayings_spec {blocks : List Lua} {said : List Saying}
    (h : blocksSayings blocks = some said) :
    said.countP Saying.isText = (blocks.filter (isType "text")).length ∧
      said.countP Saying.isResult = (blocks.filter (isType "tool_result")).length ∧
      ∀ block ∈ blocks, (isType "text" block = true → (fieldText (block.get "text")).isSome = true) ∧
        (isType "tool_result" block = true → (fieldText (block.get "content")).isSome = true) := by
  induction blocks generalizing said with
  | nil =>
      cases h
      exact ⟨rfl, rfl, nofun⟩
  | cons block rest ih =>
      simp only [blocksSayings, Option.bind_eq_bind, Option.bind_eq_some_iff] at h
      obtain ⟨first, hfirst, others, hothers, h⟩ := h
      obtain rfl := Option.some.inj h
      obtain ⟨htexts, hresults, hfields⟩ := ih hothers
      rw [blockSayings] at hfirst
      rw [List.countP_append, List.countP_append, htexts, hresults, List.forall_mem_cons]
      by_cases htext : isType "text" block = true
      · have hresult := not_result_of_text htext
        rw [if_pos htext] at hfirst
        obtain ⟨s, hs, rfl⟩ := Option.map_eq_some_iff.mp hfirst
        rw [List.filter_cons_of_pos htext, List.filter_cons_of_neg (by simp [hresult])]
        refine ⟨by simp [Saying.isText, Nat.add_comm], by simp [Saying.isResult], ⟨fun _ => ?_, ?_⟩, hfields⟩
        · rw [hs]
          rfl
        · rw [hresult]
          exact nofun
      rw [if_neg htext] at hfirst
      by_cases hresult : isType "tool_result" block = true
      · rw [if_pos hresult] at hfirst
        obtain ⟨s, hs, rfl⟩ := Option.map_eq_some_iff.mp hfirst
        rw [List.filter_cons_of_neg htext, List.filter_cons_of_pos hresult]
        refine ⟨by simp [Saying.isText], by simp [Saying.isResult, Nat.add_comm],
          ⟨fun h => absurd h htext, fun _ => ?_⟩, hfields⟩
        rw [hs]
        rfl
      · rw [if_neg hresult] at hfirst
        cases hfirst
        rw [List.filter_cons_of_neg htext, List.filter_cons_of_neg hresult]
        exact ⟨by simp, by simp, ⟨fun h => absurd h htext, fun h => absurd h hresult⟩, hfields⟩

section

variable {host : Host} {m : Lua} {group : List OaiMessage}

def isUser (o : OaiMessage) : Bool := o.role.eq (.str "user")

/-- Who said a message of a fold. -/
def Roled (m : Lua) : Prop := m.get "role" = .str "user" ∨ m.get "role" = .str "assistant"

theorem countP_carried (hrole : Roled m) {pieces : List (List Saying)}
    (h : List.Forall₂ (Carries (m.get "role")) group pieces) :
    pieces.flatten.countP Saying.isResult = group.countP isTool ∧
      (group.countP isUser = 0 → m.get "role" = .str "user" →
        pieces.flatten.countP Saying.isText = 0) := by
  induction h with
  | nil => exact ⟨rfl, fun _ _ => rfl⟩
  | @cons o p group pieces hcarries _ ih =>
      rw [List.flatten_cons, List.countP_append, List.countP_append, List.countP_cons,
        List.countP_cons, ih.1]
      rcases hcarries with ⟨htool, s, rfl, -⟩ | ⟨hsaid, ts, rfl, -⟩
      · have ht : isTool o = true := by simp [isTool, htool, Lua.eq]
        refine ⟨by simp [Saying.isResult, ht, Nat.add_comm], fun hzero huser => ?_⟩
        rw [ih.2 (by omega) huser]
        simp [Saying.isText]
      · have hnone : (ts.map Saying.text).countP Saying.isResult = 0 :=
          List.countP_eq_zero.mpr fun x hx => by
            obtain ⟨t, -, rfl⟩ := List.mem_map.mp hx
            simp [Saying.isResult]
        have ht : isTool o = false := by
          rcases hrole with h | h <;> simp [isTool, hsaid, h, Lua.eq]
        refine ⟨by simp [hnone, ht], fun hzero huser => ?_⟩
        have hu : isUser o = true := by simp [isUser, hsaid, huser, Lua.eq]
        rw [hu] at hzero
        simp at hzero

/-- What a group that renders a message has of each kind. -/
theorem Renders.counts (h : Renders host m group) (hrole : Roled m) :
    (HasContent m → group.countP isTool = (resultsOf (m.get "content")).length) ∧
      (m.get "role" = .str "user" → resultsOf (m.get "content") = [] → group.countP isUser = 1) ∧
      (callsOfGroup group).length = (usesOf (m.get "content")).length := by
  refine ⟨?_, ?_, h.called.length_eq.symm⟩
  · rintro (⟨s, hs⟩ | ⟨blocks, fields, hblocks, -⟩)
    · obtain ⟨pieces, hpieces, hsaid⟩ := h.said
      rw [hs] at hsaid ⊢
      have hflat := Option.some.inj hsaid
      rw [← (countP_carried hrole hpieces).1, ← hflat]
      rfl
    · obtain ⟨pieces, hpieces, hsaid⟩ := h.said
      rw [hblocks] at hsaid ⊢
      rw [← (countP_carried hrole hpieces).1]
      exact (blocksSayings_spec hsaid).2.1
  · intro huser hnone
    obtain ⟨o, rfl, ho⟩ := h.whole hnone
    simp [isUser, ho, huser, Lua.eq]

end

/-! ### Messages, converted -/

section

variable {host : Host} {m : Lua} {group : List OaiMessage}

/-- What a message with a content becomes. -/
inductive Converted (host : Host) (m : Lua) : List OaiMessage → Prop
  | said {s : String} : m.get "content" = .str s →
      Converted host m [{ role := m.get "role", content := .str s }]
  | assistant {blocks : List Lua} {fields : List (String × Lua)} {o : OaiMessage} :
      m.get "role" = .str "assistant" → m.get "content" = .table blocks fields →
      convertAssistant host blocks = .ok o → Converted host m [o]
  | results {blocks : List Lua} {fields : List (String × Lua)} : m.get "role" = .str "user" →
      m.get "content" = .table blocks fields → resultsOf (m.get "content") ≠ [] →
      Converted host m ((resultsOf (m.get "content")).map (toolMessage host))
  | user {blocks : List Lua} {fields : List (String × Lua)} {s : String} :
      m.get "role" = .str "user" → m.get "content" = .table blocks fields →
      resultsOf (m.get "content") = [] →
      concat host ((blocks.filter (isType "text")).map fun block =>
        (block.get "text").orElse (.str "")) "\n" = .ok s →
      Converted host m [{ role := .str "user", content := .str s }]

theorem any_isResult {blocks : List Lua} {fields : List (String × Lua)} :
    blocks.any (isType "tool_result") = true ↔ resultsOf (.table blocks fields) ≠ [] := by
  rw [List.any_eq_true, resultsOf, blocksOf, Ne, List.filter_eq_nil_iff]
  push Not
  rfl

theorem converted_iff (hindex : m.isIndexable = true) (hcontent : HasContent m) (hrole : Roled m) :
    convertMessage host m = .ok group ↔ Converted host m group := by
  have hm : convertMessage host m = match m.get "content" with
      | .str s => .ok [{ role := m.get "role", content := .str s }]
      | .table blocks fields =>
          if (m.get "role").eq (.str "assistant") then (convertAssistant host blocks).map fun o => [o]
          else if (m.get "role").eq (.str "user") then convertUser host blocks
          else .ok [{ role := m.get "role", content := .table blocks fields }]
      | _ => .ok [] := by
    simp only [convertMessage, Lua.index_of_isIndexable hindex, bind, Except.bind]
    cases m.get "content" with
    | table blocks fields => cases convertAssistant host blocks <;> rfl
    | _ => rfl
  rw [hm]
  rcases hcontent with ⟨s, hs⟩ | ⟨blocks, fields, hblocks, htables⟩
  · rw [hs]
    constructor
    · rintro h
      cases h
      exact .said hs
    · rintro (hs' | ⟨-, hb, -⟩ | ⟨-, hb, -⟩ | ⟨-, hb, -, -⟩)
      · rw [hs] at hs'
        cases hs'
        rfl
      all_goals
        rw [hs] at hb
        cases hb
  · rw [hblocks]
    simp only []
    rcases hrole with huser | hassistant
    -- a user's blocks: the results alone if there are any, else one joined text
    · have hu : (m.get "role").eq (.str "assistant") = false := by rw [huser]; rfl
      have hu' : (m.get "role").eq (.str "user") = true := Lua.eq_str.mpr huser
      rw [hu, hu', if_neg Bool.false_ne_true, if_pos rfl]
      simp only [convertUser, hasToolResult_eq htables, toolMessages_eq htables,
        userParts_eq htables, bind, Except.bind]
      constructor
      · intro h
        split at h
        · rename_i hany
          cases h
          have hresults : resultsOf (.table blocks fields) ≠ [] := any_isResult.mp hany
          rw [← hblocks] at hresults
          have := @Converted.results host m blocks fields huser hblocks hresults
          rwa [hblocks] at this
        · rename_i hany
          have hresults : resultsOf (m.get "content") = [] := by
            by_contra hne
            rw [hblocks] at hne
            exact hany (any_isResult.mpr hne)
          split at h
          · cases h
          · rename_i s hs
            cases h
            exact .user huser hblocks hresults hs
      · rintro (hs | ⟨ha, -, -⟩ | ⟨-, hb, hresults⟩ | ⟨-, hb, hresults, hs⟩)
        · rw [hblocks] at hs
          cases hs
        · rw [huser] at ha
          simp at ha
        · rw [hblocks] at hresults
          rw [if_pos (any_isResult.mpr hresults), hblocks]
          rfl
        · rw [hblocks] at hresults hb
          cases hb
          rw [if_neg fun hany => any_isResult.mp hany hresults, hs]
          rfl
    -- an assistant's blocks are one message, its texts joined beside its calls
    · have ha : (m.get "role").eq (.str "assistant") = true := Lua.eq_str.mpr hassistant
      rw [ha, if_pos rfl]
      constructor
      · intro h
        cases ho : convertAssistant host blocks with
        | error e =>
            rw [ho] at h
            cases h
        | ok o =>
            rw [ho] at h
            cases h
            exact .assistant hassistant hblocks ho
      · rintro (hs | ⟨-, hb, ho⟩ | ⟨hu, -, -⟩ | ⟨hu, -, -, -⟩)
        · rw [hblocks] at hs
          cases hs
        · rw [hblocks] at hb
          cases hb
          rw [ho]
          rfl
        all_goals
          rw [hassistant] at hu
          simp at hu

end

/-! ### What is sent, counted -/

section

variable {host : Host} {m : Lua} {group : List OaiMessage}

/-- An assistant's message: its calls are those of the blocks, and it has a
content where there is a text. -/
theorem convertAssistant_ok {blocks : List Lua} (hb : ∀ block ∈ blocks, block.isTable = true)
    {o : OaiMessage} (h : convertAssistant host blocks = .ok o) :
    o.role = .str "assistant" ∧
      List.Forall₂ (CallOf host) (blocks.filter (isType "tool_use")) (o.toolCalls.getD []) ∧
      o.toolCalls ≠ some [] ∧
      (o.content.isNil = true ↔ blocks.filter (isType "text") = []) := by
  simp only [convertAssistant, bind_eq_ok] at h
  obtain ⟨⟨texts, calls⟩, hparts, content, hcontent, h⟩ := h
  obtain ⟨rfl, hcalls⟩ := assistantParts_ok hb hparts
  cases h
  refine ⟨rfl, ?_, ?_, ?_⟩
  · show List.Forall₂ _ _ ((if calls.isEmpty then none else some calls).getD [])
    split
    · rename_i hempty
      rw [List.isEmpty_iff.mp hempty] at hcalls
      exact hcalls
    · exact hcalls
  · show (if calls.isEmpty then none else some calls) ≠ some []
    split
    · nofun
    · rename_i hempty
      intro hsome
      cases Option.some.inj hsome
      simp at hempty
  · show content.isNil = true ↔ _
    rw [textContent] at hcontent
    split at hcontent
    · rename_i hempty
      cases hcontent
      simpa [Lua.isNil] using hempty
    · rename_i hempty
      simp only [bind_eq_ok] at hcontent
      obtain ⟨s, -, hs⟩ := hcontent
      cases hs
      simpa [Lua.isNil] using hempty

/-- The messages of results a message becomes. -/
def toolsSent (m : Lua) : Nat :=
  if (m.get "role").eq (.str "user") then (resultsOf (m.get "content")).length else 0

/-- The messages of a user a message becomes. -/
def usersSent (m : Lua) : Nat :=
  if (m.get "role").eq (.str "user") ∧ (resultsOf (m.get "content")).isEmpty then 1 else 0

/-- The calls a message becomes. -/
def callsSent (m : Lua) : Nat :=
  if (m.get "role").eq (.str "assistant") then (usesOf (m.get "content")).length else 0

theorem Converted.counts (h : Converted host m group) (hcontent : HasContent m) (hrole : Roled m) :
    group.countP isTool = toolsSent m ∧ group.countP isUser = usersSent m ∧
      (callsOfGroup group).length = callsSent m := by
  cases h with
  | @said s hs =>
      have hnone : resultsOf (m.get "content") = [] ∧ usesOf (m.get "content") = [] := by
        rw [hs]
        exact ⟨rfl, rfl⟩
      rcases hrole with h | h <;>
        simp [toolsSent, usersSent, callsSent, hnone, h, isTool, isUser, callsOfGroup, Lua.eq]
  | @assistant blocks fields o hassistant hblocks ho =>
      have htables : ∀ block ∈ blocks, block.isTable = true := by
        rcases hcontent with ⟨s, hs⟩ | ⟨blocks', fields', hb, hall⟩
        · rw [hblocks] at hs
          cases hs
        · rw [hblocks] at hb
          cases hb
          exact hall
      obtain ⟨hr, hcalls, -, -⟩ := convertAssistant_ok htables ho
      have hlen := hcalls.length_eq
      refine ⟨by simp [isTool, hr, toolsSent, hassistant, Lua.eq],
        by simp [isUser, hr, usersSent, hassistant, Lua.eq], ?_⟩
      simp only [callsOfGroup, List.flatMap_cons, List.flatMap_nil, List.append_nil, callsSent,
        hassistant, Lua.eq, decide_true, if_true, usesOf, hblocks, blocksOf]
      exact hlen.symm
  | results huser hblocks hne =>
      -- each result is one tool message, which holds no call
      have hlist (l : List Lua) : (l.map (toolMessage host)).countP isTool = l.length ∧
          (l.map (toolMessage host)).countP isUser = 0 ∧
          (callsOfGroup (l.map (toolMessage host))).length = 0 := by
        induction l with
        | nil => exact ⟨rfl, rfl, rfl⟩
        | cons block rest ih =>
            simp only [List.map_cons, List.countP_cons, callsOfGroup, List.flatMap_cons] at ih ⊢
            rw [ih.1, ih.2.1, List.length_append, ih.2.2]
            exact ⟨rfl, rfl, rfl⟩
      obtain ⟨htools, husers, hcalls⟩ := hlist (resultsOf (m.get "content"))
      rw [htools, husers, hcalls]
      simp [toolsSent, usersSent, callsSent, huser, hne, Lua.eq]
  | user huser hblocks hnone hs =>
      simp [toolsSent, usersSent, callsSent, huser, hnone, isTool, isUser, callsOfGroup, Lua.eq]

/-- Counts that are at most others, and sum up to them, are those. -/
theorem forall₂_eq_of_sum {α β : Type} {R : α → β → Prop} {f : α → Nat} {g : β → Nat} {l : List α}
    {l' : List β} (h : List.Forall₂ R l l') (hle : ∀ a ∈ l, ∀ b, R a b → f a ≤ g b)
    (hsum : (l'.map g).sum = (l.map f).sum) : List.Forall₂ (fun a b => R a b ∧ g b = f a) l l' := by
  induction h with
  | nil => exact .nil
  | @cons a b l l' hab hrest ih =>
      have hrest' : ∀ x ∈ l, ∀ y, R x y → f x ≤ g y := fun x hx => hle x (List.mem_cons_of_mem _ hx)
      have hsums : (l.map f).sum ≤ (l'.map g).sum := by
        clear ih hsum
        induction hrest with
        | nil => exact Nat.le_refl _
        | @cons x y l l' hxy _ ih =>
            have := hrest' x List.mem_cons_self y hxy
            have := ih (fun z hz => hle z (by
              rcases List.mem_cons.mp hz with rfl | hz
              · exact List.mem_cons_self
              · exact List.mem_cons_of_mem _ (List.mem_cons_of_mem _ hz)))
              fun z hz => hrest' z (List.mem_cons_of_mem _ hz)
            simp only [List.map_cons, List.sum_cons]
            omega
      have hhead := hle a List.mem_cons_self b hab
      simp only [List.map_cons, List.sum_cons] at hsum
      exact .cons ⟨hab, by omega⟩ (ih hrest' (by omega))

end

/-! ### Lists of messages -/

section

variable {host : Host} {messages : List Lua} {out : List OaiMessage}

/-- What a message becomes, where it can be converted. -/
def groupOf (host : Host) (m : Lua) : List OaiMessage :=
  match convertMessage host m with
  | .ok group => group
  | .error _ => []

theorem convertEach_ok_iff : convertEach host messages = .ok out ↔
    (∀ m ∈ messages, convertMessage host m = .ok (groupOf host m)) ∧
      out = messages.flatMap (groupOf host) := by
  induction messages generalizing out with
  | nil =>
      constructor
      · intro h
        cases h
        exact ⟨nofun, rfl⟩
      · rintro ⟨-, rfl⟩
        rfl
  | cons m rest ih =>
      rw [List.forall_mem_cons, List.flatMap_cons, convertEach]
      simp only [bind_eq_ok]
      constructor
      · rintro ⟨group, hgroup, others, hothers, h⟩
        obtain ⟨hrest, rfl⟩ := ih.mp hothers
        obtain rfl := Except.ok.inj h
        have hm : groupOf host m = group := by rw [groupOf, hgroup]
        rw [hm]
        exact ⟨⟨hgroup, hrest⟩, rfl⟩
      · rintro ⟨⟨hm, hrest⟩, rfl⟩
        exact ⟨groupOf host m, hm, _, ih.mpr ⟨hrest, rfl⟩, rfl⟩

/-- The messages of a fold: each is a user's or an assistant's, with a string or
blocks for its content. -/
structure Folded (messages : List Lua) : Prop where
  table : ∀ m ∈ messages, m.isTable = true
  role : ∀ m ∈ messages, Roled m
  content : ∀ m ∈ messages, HasContent m

theorem Folded.converted_iff (h : Folded messages) {m : Lua} (hm : m ∈ messages)
    {group : List OaiMessage} : convertMessage host m = .ok group ↔ Converted host m group := by
  refine Openai.converted_iff ?_ (h.content m hm) (h.role m hm)
  have := h.table m hm
  cases m <;> first | rfl | cases this

theorem convertMessages_ok_iff (h : Folded messages) (system : Lua) :
    convertMessages host (.array messages) system = .ok out ↔
      (∀ m ∈ messages, Converted host m (groupOf host m)) ∧
        out = systemMessages system ++ messages.flatMap (groupOf host) := by
  have helements : elements ((Lua.array messages).orElse emptyTable) = .ok messages := by
    show Except.ok (messages.takeWhile fun v => !v.isNil) = _
    rw [List.takeWhile_eq_self_iff.mpr]
    intro m hm
    have := h.table m hm
    cases m <;> first | rfl | cases this
  have hall : (∀ m ∈ messages, convertMessage host m = .ok (groupOf host m)) ↔
      ∀ m ∈ messages, Converted host m (groupOf host m) :=
    forall₂_congr fun m hm => h.converted_iff hm
  simp only [convertMessages, helements, bind, Except.bind]
  rw [← hall]
  cases heach : convertEach host messages with
  | error e =>
      constructor
      · exact nofun
      · rintro ⟨hm, -⟩
        rw [convertEach_ok_iff.mpr ⟨hm, rfl⟩] at heach
        cases heach
  | ok each =>
      obtain ⟨hm, rfl⟩ := convertEach_ok_iff.mp heach
      constructor
      · intro hout
        obtain rfl := Except.ok.inj hout
        exact ⟨hm, rfl⟩
      · rintro ⟨-, rfl⟩
        rfl

theorem HasContent.tables {m : Lua} (h : HasContent m) {blocks : List Lua}
    {fields : List (String × Lua)} (hblocks : m.get "content" = .table blocks fields) :
    ∀ block ∈ blocks, block.isTable = true := by
  rcases h with ⟨s, hs⟩ | ⟨blocks', fields', hb, hall⟩
  · rw [hblocks] at hs
    cases hs
  · rw [hblocks] at hb
    cases hb
    exact hall

/-- The run of tool messages that comes of a message list answers the ids its
results name. -/
theorem tools_of_groups (h : Folded messages)
    (hconverted : ∀ m ∈ messages, Converted host m (groupOf host m))
    (hwhole : ∀ m ∈ messages, m.get "role" = .str "assistant" → resultsOf (m.get "content") = []) :
    ((messages.flatMap (groupOf host)).takeWhile isTool).map (fun o => o.toolCallId) =
      resultIds messages := by
  induction messages with
  | nil => rfl
  | cons m rest ih =>
      have hrest : Folded rest := ⟨fun x hx => h.table x (List.mem_cons_of_mem _ hx),
        fun x hx => h.role x (List.mem_cons_of_mem _ hx),
        fun x hx => h.content x (List.mem_cons_of_mem _ hx)⟩
      have ih := ih hrest (fun x hx => hconverted x (List.mem_cons_of_mem _ hx))
        fun x hx => hwhole x (List.mem_cons_of_mem _ hx)
      -- a message without results ends the run on both sides
      have hstop (o : OaiMessage) (hgroup : groupOf host m = [o]) (ho : isTool o = false)
          (hnone : resultsOf (m.get "content") = []) :
          ((groupOf host m ++ rest.flatMap (groupOf host)).takeWhile isTool).map
            (fun o => o.toolCallId) = resultIds (m :: rest) := by
        rw [hgroup, List.singleton_append, List.takeWhile_cons_of_neg (by simp [ho]), resultIds,
          List.takeWhile_cons_of_neg (by simp [hnone])]
        rfl
      rw [List.flatMap_cons]
      generalize hg : groupOf host m = group at hstop
      have hconv := hconverted m List.mem_cons_self
      rw [hg] at hconv
      cases hconv with
      | @said s hs =>
          refine hstop _ rfl ?_ (by rw [hs]; rfl)
          rcases h.role m List.mem_cons_self with hrole | hrole <;>
            simp [isTool, hrole, Lua.eq]
      | assistant hassistant hblocks ho =>
          refine hstop _ rfl ?_ (hwhole m List.mem_cons_self hassistant)
          have htables := (h.content m List.mem_cons_self).tables hblocks
          rw [isTool, (convertAssistant_ok htables ho).1]
          rfl
      | results huser hblocks hne =>
          have hall : ∀ o ∈ (resultsOf (m.get "content")).map (toolMessage host), isTool o = true := by
            intro o ho
            obtain ⟨block, -, rfl⟩ := List.mem_map.mp ho
            rfl
          rw [List.takeWhile_append_of_pos hall, List.map_append, ih, resultIds, resultIds,
            List.takeWhile_cons_of_pos (by simp [hne]), List.flatMap_cons, List.map_map]
          rfl
      | user huser hblocks hnone hs => exact hstop _ rfl rfl hnone

end

/-! ### Whole messages -/

section

variable {host : Host} {m : Lua} {group : List OaiMessage} {blocks : List Lua}

theorem fieldText_eq {v : Lua} {s : String} (h : fieldText v = some s) :
    v.orElse (.str "") = .str s := by
  rw [fieldText] at h
  cases hv : v.orElse (.str "") with
  | str t =>
      rw [hv] at h
      rw [Option.some.inj h]
  | _ =>
      rw [hv] at h
      cases h

theorem asStr_eq {v : Lua} {s : String} (h : v.asStr = some s) : v = .str s := by
  cases v <;> simp_all [Lua.asStr]

/-- The texts of blocks that give no results. -/
theorem texts_of_blocks (h : ∀ block ∈ blocks, FieldsRead host block)
    (hnone : blocks.filter (isType "tool_result") = []) :
    ∃ ts : List String, blocksSayings blocks = some (ts.map .text) ∧
      (blocks.filter (isType "text")).map (fun block => (block.get "text").orElse (.str "")) =
        ts.map .str := by
  induction blocks with
  | nil => exact ⟨[], rfl, rfl⟩
  | cons block rest ih =>
      have hresult : isType "tool_result" block = false := by
        simpa using (List.filter_eq_nil_iff.mp hnone) block List.mem_cons_self
      have hrest : rest.filter (isType "tool_result") = [] := by
        rwa [List.filter_cons_of_neg (by simp [hresult])] at hnone
      obtain ⟨ts, hsaid, hts⟩ := ih (fun b hb => h b (List.mem_cons_of_mem _ hb)) hrest
      by_cases htext : isType "text" block = true
      · obtain ⟨s, hs⟩ := Option.isSome_iff_exists.mp ((h block List.mem_cons_self).text htext)
        refine ⟨s :: ts, ?_, ?_⟩
        · simp [blocksSayings, blockSayings, htext, hs, hsaid]
        · rw [List.filter_cons_of_pos htext, List.map_cons, hts, fieldText_eq hs]
          rfl
      · refine ⟨ts, ?_, ?_⟩
        · simp [blocksSayings, blockSayings, htext, hresult, hsaid]
        · rw [List.filter_cons_of_neg htext, hts]

/-- The results of blocks that have no text beside them. -/
theorem results_of_blocks (role : Lua) (h : ∀ block ∈ blocks, FieldsRead host block)
    (hnone : blocks.filter (isType "text") = []) :
    ∃ said : List Saying, blocksSayings blocks = some said ∧
      List.Forall₂ (Carries role)
        ((blocks.filter (isType "tool_result")).map (toolMessage host)) (said.map fun x => [x]) := by
  induction blocks with
  | nil => exact ⟨[], rfl, .nil⟩
  | cons block rest ih =>
      have htext : isType "text" block = false := by
        simpa using (List.filter_eq_nil_iff.mp hnone) block List.mem_cons_self
      have hrest : rest.filter (isType "text") = [] := by
        rwa [List.filter_cons_of_neg (by simp [htext])] at hnone
      obtain ⟨said, hsaid, hcarries⟩ := ih (fun b hb => h b (List.mem_cons_of_mem _ hb)) hrest
      by_cases hresult : isType "tool_result" block = true
      · obtain ⟨s, hs⟩ := Option.isSome_iff_exists.mp ((h block List.mem_cons_self).result hresult)
        refine ⟨.result (block.get "tool_use_id") s :: said, ?_, ?_⟩
        · simp [blocksSayings, blockSayings, htext, hresult, hs, hsaid]
        · rw [List.filter_cons_of_pos hresult]
          refine .cons (.inl ⟨rfl, s, rfl, ?_⟩) hcarries
          simp only [toolMessage, fieldText_eq hs]
          rfl
      · refine ⟨said, ?_, ?_⟩
        · simp [blocksSayings, blockSayings, htext, hresult, hsaid]
        · rw [List.filter_cons_of_neg hresult]
          exact hcarries

theorem flatten_singletons {α : Type} (l : List α) : (l.map fun x => [x]).flatten = l := by
  induction l with
  | nil => rfl
  | cons x rest ih => rw [List.map_cons, List.flatten_cons, ih]; rfl

/-- A call of a block with a name is the same call. -/
theorem sameCalls {calls : List OaiToolCall} (h : ∀ block ∈ blocks, FieldsRead host block)
    (hcalls : List.Forall₂ (CallOf host) (blocks.filter (isType "tool_use")) calls) :
    List.Forall₂ (SameCall host) (blocks.filter (isType "tool_use")) calls := by
  have hnamed : ∀ block ∈ blocks.filter (isType "tool_use"), (block.get "name").asStr.isSome = true :=
    fun block hb => ((h block (List.mem_filter.mp hb).1).call (List.mem_filter.mp hb).2).1
  generalize blocks.filter (isType "tool_use") = uses at hcalls hnamed
  induction hcalls with
  | nil => exact .nil
  | cons hcall _ ih =>
      rw [List.forall_mem_cons] at hnamed
      obtain ⟨hid, hname, hargs⟩ := hcall
      obtain ⟨name, hsome⟩ := Option.isSome_iff_exists.mp hnamed.1
      refine .cons ⟨hid, ⟨name, ?_, ?_⟩, hargs⟩ (ih hnamed.2)
      · exact asStr_eq hsome
      · rw [hname]
        exact asStr_eq hsome

end

section

variable {host : Host} {m : Lua} {group : List OaiMessage}

theorem convertAssistant_eq {blocks : List Lua} {ts : List String} {calls : List OaiToolCall}
    (h : assistantParts host blocks = .ok (ts.map .str, calls)) :
    convertAssistant host blocks = .ok {
      role := .str "assistant"
      content := if ts.isEmpty then .nil else .str ("\n".intercalate ts)
      toolCalls := if calls.isEmpty then none else some calls } := by
  simp only [convertAssistant, h, bind, Except.bind]
  cases ts with
  | nil => rfl
  | cons t ts =>
      have hconcat : concat host (.str t :: ts.map .str) "\n" = _ := concat_str (t :: ts) "\n"
      simp only [textContent, List.map_cons, List.isEmpty_cons, Bool.false_eq_true, if_false,
        hconcat, bind, Except.bind]
      rfl

/-- A message with nothing left out can be converted, and its group renders
it. -/
theorem renders_of_whole (h : Whole host m) (hcontent : HasContent m) (hrole : Roled m) :
    ∃ group, Converted host m group ∧ Renders host m group := by
  rcases hcontent with ⟨s, hs⟩ | ⟨blocks, fields, hblocks, htables⟩
  · refine ⟨_, .said hs, ⟨[[.text s]], .cons (.inr ⟨rfl, [s], rfl, .inl rfl⟩) .nil, ?_⟩, ?_, ?_⟩
    · rw [hs]
      rfl
    · rw [hs]
      exact .nil
    · exact fun _ => ⟨_, rfl, rfl⟩
  have hfields : ∀ block ∈ blocks, FieldsRead host block := by
    have := h.fields
    rwa [hblocks] at this
  have huses : usesOf (m.get "content") = blocks.filter (isType "tool_use") := by rw [hblocks]; rfl
  have hresults : resultsOf (m.get "content") = blocks.filter (isType "tool_result") := by
    rw [hblocks]
    rfl
  have hsayings : sayings (m.get "content") = blocksSayings blocks := by rw [hblocks]; rfl
  rcases hrole with huser | hassistant
  · have hnocalls := (h.user huser).1
    by_cases hne : resultsOf (m.get "content") = []
    · obtain ⟨ts, hsaid, hts⟩ := texts_of_blocks hfields (hresults ▸ hne)
      refine ⟨_, .user huser hblocks hne (by rw [hts]; exact concat_str ts "\n"),
        ⟨[ts.map .text], .cons (.inr ⟨huser.symm, ts, rfl, .inl rfl⟩) .nil, ?_⟩, ?_, ?_⟩
      · rw [hsayings, hsaid]
        simp
      · rw [hnocalls]
        exact .nil
      · exact fun _ => ⟨_, rfl, huser.symm⟩
    -- beside a result there is no text, for it would be left out
    · have hnotext : blocks.filter (isType "text") = [] := by
        have := (h.user huser).2.resolve_left hne
        rwa [hblocks] at this
      obtain ⟨said, hsaid, hcarries⟩ := results_of_blocks (m.get "role") hfields hnotext
      refine ⟨_, .results huser hblocks hne, ⟨said.map fun x => [x], by rw [hresults]; exact hcarries, ?_⟩,
        ?_, fun hnil => absurd hnil hne⟩
      · rw [hsayings, hsaid, flatten_singletons]
      · have hnone : callsOfGroup ((resultsOf (m.get "content")).map (toolMessage host)) = [] :=
          List.flatMap_eq_nil_iff.mpr fun o ho => by
            obtain ⟨block, -, rfl⟩ := List.mem_map.mp ho
            rfl
        rw [hnocalls, hnone]
        exact .nil
  · have hnone := (h.assistant hassistant).1
    obtain ⟨ts, hsaid, hts⟩ := texts_of_blocks hfields (hresults ▸ hnone)
    obtain ⟨⟨texts, calls⟩, hparts⟩ := @returns_assistantParts host blocks htables
      fun block hb huse => ((hfields block hb).call huse).2
    obtain ⟨rfl, hcalls⟩ := assistantParts_ok htables hparts
    rw [hts] at hparts
    refine ⟨_, .assistant hassistant hblocks (convertAssistant_eq hparts),
      ⟨[ts.map .text], .cons (.inr ⟨hassistant.symm, ts, rfl, ?_⟩) .nil, ?_⟩, ?_, ?_⟩
    · cases ts with
      | nil => exact .inr ⟨rfl, rfl⟩
      | cons t ts => exact .inl rfl
    · rw [hsayings, hsaid]
      simp
    · rw [huses]
      -- the calls of the message are those of its blocks, none being an absent list
      have : callsOfGroup [{
          role := .str "assistant"
          content := if ts.isEmpty then .nil else .str ("\n".intercalate ts)
          toolCalls := if calls.isEmpty then none else some calls }] = calls := by
        cases calls <;> simp [callsOfGroup]
      rw [this]
      exact sameCalls hfields hcalls
    · exact fun _ => ⟨_, rfl, hassistant.symm⟩

end

end AgentBlock.Llm.Openai
