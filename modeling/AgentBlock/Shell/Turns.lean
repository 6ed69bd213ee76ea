/-
AgentBlock/Shell/Turns.lean

The default fold in closed form.

A history is cut into turns: a message somebody said, the ids it calls tools
under, and the results recorded until the next message.  The messages of a turn
are that message and, where there are any, one message of results: the recorded
ones and then one for each id none of them answers.

Main results:

* `foldMessages_eq` — where every event can be read, the fold of a history is
  the messages of its turns, one turn after the other;
* `readable_of_foldMessages` — and any other history makes it raise.
-/
import AgentBlock.Shell.Fold

namespace AgentBlock.Shell

open Lua (record array)

/-! ### Reading an event -/

/-- What the fold takes from an event. -/
inductive Heard where
  | said (message : Lua) (ids : List Lua)
  | result (id block : Lua)
  | skipped

/-- The kind's own content; an event without any reads as an empty one. -/
def dataOf (ev : Lua) : Lua := if (ev.get "data").isTable then ev.get "data" else .table [] []

def isKind (kind : String) (ev : Lua) : Bool := (ev.get "kind").eq (.str kind)

/-- The blocks of a content that is a table. -/
def blocksOf : Lua → List Lua
  | .table blocks _ => blocks
  | _ => []

/-- The id a block calls a tool under; `nil` for any other block. -/
def callIdOf (block : Lua) : Lua :=
  if (block.get "type").eq (.str "tool_use") then block.get "id" else .nil

/-- The ids a content calls tools under, in order. -/
def callIds (content : Lua) : List Lua :=
  ((blocksOf content).map callIdOf).filter fun id => !id.isNil

/-- What may be the key of a table, or is none. -/
def isKey : Lua → Bool
  | .num .nan => false
  | _ => true

section

variable (encode : Lua → Except Lua String)

/-- The event can be read: it has fields, the blocks of a response have fields,
and of a result the id can be a key and the value a text. -/
structure Readable (ev : Lua) : Prop where
  event : ev.isIndexable = true
  blocks : isKind "llm_response" ev = true →
    ∀ block ∈ blocksOf ((dataOf ev).get "content"), block.isIndexable = true
  key : isKind "tool_result" ev = true → isKey ((dataOf ev).get "call_id") = true
  renders : isKind "tool_result" ev = true → ∃ block, toolResultBlock encode (dataOf ev) = .ok block

/-- The block of a recorded result that renders. -/
def resultBlock (data : Lua) : Lua :=
  match toolResultBlock encode data with
  | .ok block => block
  | .error _ => .nil

/-- What is taken from an event that can be read. -/
def heard (ev : Lua) : Heard :=
  let content := (dataOf ev).get "content"
  if isKind "msg_user" ev then .said (userMessage content) []
  else if isKind "llm_response" ev then .said (assistantMessage content) (callIds content)
  else if isKind "tool_result" ev then
    .result ((dataOf ev).get "call_id") (resultBlock encode (dataOf ev))
  else .skipped

/-- What hearing something changes. -/
def Folding.hear (f : Folding) : Heard → Folding
  | .said message ids => { f.closeDangling.flush.say message with pending := ids }
  | .result id block =>
      { f with
        answered := if id.isNil then f.answered else f.answered ++ [id]
        batch := f.batch ++ [block] }
  | .skipped => f

variable {encode}

theorem toolUseIds_ok {blocks : List Lua} (h : ∀ block ∈ blocks, block.isIndexable = true) :
    toolUseIds blocks = .ok ((blocks.map callIdOf).filter fun id => !id.isNil) := by
  induction blocks with
  | nil => rfl
  | cons block rest ih =>
      have hrest := ih fun b hb => h b (List.mem_cons_of_mem _ hb)
      have hblock := h block List.mem_cons_self
      simp only [toolUseIds, Lua.index_of_isIndexable hblock, hrest, bind, Except.bind]
      by_cases htype : (block.get "type").eq (.str "tool_use") = true
      · simp only [htype, if_true]
        by_cases hid : (block.get "id").isNil = true <;>
          simp [callIdOf, htype, hid]
      · simp [callIdOf, htype, Lua.isNil]

theorem toolUseIds_error {blocks : List Lua} {block : Lua} (hmem : block ∈ blocks)
    (h : block.isIndexable = false) : ∃ e, toolUseIds blocks = .error e := by
  induction blocks with
  | nil => cases hmem
  | cons b rest ih =>
      by_cases hb : b.isIndexable = true
      · have hrest : block ∈ rest := by
          rcases List.mem_cons.mp hmem with rfl | hrest
          · rw [h] at hb
            cases hb
          · exact hrest
        obtain ⟨e, he⟩ := ih hrest
        refine ⟨e, ?_⟩
        simp only [toolUseIds, Lua.index_of_isIndexable hb, he, bind, Except.bind]
        split <;> rfl
      · refine ⟨b.indexError, ?_⟩
        simp only [toolUseIds, Lua.index_of_not_isIndexable (Bool.eq_false_of_not_eq_true hb),
          bind, Except.bind]

theorem isKind_iff {kind : String} {ev : Lua} :
    isKind kind ev = true ↔ ev.get "kind" = .str kind := Lua.eq_str

theorem pending_say (f : Folding) (message : Lua) :
    (f.closeDangling.flush.say message).pending = [] := by
  simp only [Folding.say, Folding.flush]
  split <;> rfl

section

variable {ev : Lua} (f : Folding) (h : ev.isIndexable = true)

include h

theorem foldEvent_user (hkind : ev.get "kind" = .str "msg_user") :
    foldEvent encode f ev =
      .ok (f.closeDangling.flush.say (userMessage ((dataOf ev).get "content"))) := by
  simp only [foldEvent, Lua.index_of_isIndexable h, bind, Except.bind, hkind, Lua.eq, decide_true,
    if_true]
  rfl

theorem foldEvent_response (hkind : ev.get "kind" = .str "llm_response") :
    foldEvent encode f ev = (toolUseIds (blocksOf ((dataOf ev).get "content"))).map fun ids =>
      { f.closeDangling.flush.say (assistantMessage ((dataOf ev).get "content")) with
        pending := ids } := by
  have hpending := pending_say f (assistantMessage ((dataOf ev).get "content"))
  simp only [foldEvent, Lua.index_of_isIndexable h, bind, Except.bind, hkind, Lua.eq]
  simp only [dataOf] at hpending ⊢
  cases hc : (if (ev.get "data").isTable then ev.get "data" else .table [] []).get "content" with
  | table blocks fields =>
      rw [hc] at hpending
      simp [blocksOf, hpending, Except.map]
  | _ =>
      rw [hc] at hpending
      simp [blocksOf, toolUseIds, Except.map]
      rw [← hpending]

theorem foldEvent_result (hkind : ev.get "kind" = .str "tool_result") :
    foldEvent encode f ev =
      (f.answer ((dataOf ev).get "call_id")).bind fun f =>
        (toolResultBlock encode (dataOf ev)).map f.collect := by
  simp only [foldEvent, Lua.index_of_isIndexable h, bind, Except.bind, hkind, Lua.eq]
  rfl

theorem foldEvent_other (huser : ev.get "kind" ≠ .str "msg_user")
    (hresponse : ev.get "kind" ≠ .str "llm_response")
    (hresult : ev.get "kind" ≠ .str "tool_result") : foldEvent encode f ev = .ok f := by
  simp only [foldEvent, Lua.index_of_isIndexable h, bind, Except.bind, Lua.eq_str, huser,
    hresponse, hresult, if_false]

end

theorem answer_of_isKey (f : Folding) {id : Lua} (h : isKey id = true) :
    f.answer id =
      .ok { f with answered := if id.isNil then f.answered else f.answered ++ [id] } := by
  cases id with
  | num n => cases n <;> first | rfl | cases h
  | _ => rfl

theorem answer_of_not_isKey (f : Folding) {id : Lua} (h : isKey id = false) :
    f.answer id = .error (.str "index is NaN") := by
  cases id with
  | num n => cases n <;> first | rfl | cases h
  | _ => cases h

/-- An event that can be read changes what hearing it changes. -/
theorem foldEvent_ok (f : Folding) {ev : Lua} (h : Readable encode ev) :
    foldEvent encode f ev = .ok (f.hear (heard encode ev)) := by
  by_cases huser : ev.get "kind" = .str "msg_user"
  · rw [foldEvent_user f h.event huser]
    simp only [heard, isKind, huser, Lua.eq, decide_true, if_true, Folding.hear]
    rw [← pending_say]
  by_cases hresponse : ev.get "kind" = .str "llm_response"
  · have hblocks := h.blocks (isKind_iff.mpr hresponse)
    rw [foldEvent_response f h.event hresponse, toolUseIds_ok hblocks]
    simp [heard, isKind, hresponse, Lua.eq, Folding.hear, Except.map, callIds]
  by_cases hresult : ev.get "kind" = .str "tool_result"
  · obtain ⟨block, hblock⟩ := h.renders (isKind_iff.mpr hresult)
    rw [foldEvent_result f h.event hresult, answer_of_isKey f (h.key (isKind_iff.mpr hresult)),
      hblock]
    simp [heard, isKind, hresult, Lua.eq, Folding.hear, Except.map, Except.bind, resultBlock, hblock,
      Folding.collect]
  · rw [foldEvent_other f h.event huser hresponse hresult]
    simp only [heard, isKind, Lua.eq_str, huser, hresponse, hresult, if_false, Folding.hear]

/-- Any other event raises. -/
theorem foldEvent_error (f : Folding) {ev : Lua} (h : ¬Readable encode ev) :
    ∃ e, foldEvent encode f ev = .error e := by
  by_cases hev : ev.isIndexable = true
  swap
  · refine ⟨ev.indexError, ?_⟩
    simp only [foldEvent, Lua.index_of_not_isIndexable (Bool.eq_false_of_not_eq_true hev), bind,
      Except.bind]
  by_cases hresponse : ev.get "kind" = .str "llm_response"
  · have hblocks : ∃ block ∈ blocksOf ((dataOf ev).get "content"), block.isIndexable = false := by
      by_contra hall
      push Not at hall
      refine h ⟨hev, fun _ b hb => Bool.eq_true_of_not_eq_false (hall b hb), ?_, ?_⟩ <;>
        · intro hkind
          rw [isKind_iff, hresponse] at hkind
          simp at hkind
    obtain ⟨block, hmem, hblock⟩ := hblocks
    obtain ⟨e, he⟩ := toolUseIds_error hmem hblock
    exact ⟨e, by rw [foldEvent_response f hev hresponse, he]; rfl⟩
  have hnot : isKind "llm_response" ev ≠ true := fun hkind => hresponse (isKind_iff.mp hkind)
  by_cases hresult : ev.get "kind" = .str "tool_result"
  · rw [foldEvent_result f hev hresult]
    by_cases hkey : isKey ((dataOf ev).get "call_id") = true
    · rw [answer_of_isKey f hkey]
      cases hblock : toolResultBlock encode (dataOf ev) with
      | error e => exact ⟨e, rfl⟩
      | ok block =>
          exact absurd ⟨hev, fun hkind => absurd hkind hnot, fun _ => hkey, fun _ => ⟨block, hblock⟩⟩ h
    · rw [answer_of_not_isKey f (Bool.eq_false_of_not_eq_true hkey)]
      exact ⟨_, rfl⟩
  · have hnot' : isKind "tool_result" ev ≠ true := fun hkind => hresult (isKind_iff.mp hkind)
    exact absurd ⟨hev, fun hkind => absurd hkind hnot, fun hkind => absurd hkind hnot',
      fun hkind => absurd hkind hnot'⟩ h

/-! ### Turns -/

/-- A message, the ids it calls tools under, and the results until the next. -/
structure Turn where
  message : Option Lua := none
  ids : List Lua := []
  results : List (Lua × Lua) := []

namespace Turn

/-- The ids no result of the turn answers. -/
def unanswered (t : Turn) : List Lua :=
  t.ids.filter fun id => !t.results.any fun r => r.1.eq id

/-- The results of the turn, and one for each id that has none. -/
def blocks (t : Turn) : List Lua := t.results.map Prod.snd ++ t.unanswered.map interruptedBlock

/-- The message of results, where there are any. -/
def answers (t : Turn) : List Lua :=
  if t.blocks.isEmpty then [] else [userMessage (array t.blocks)]

def messages (t : Turn) : List Lua := t.message.toList ++ t.answers

end Turn

/-- The turns of what was heard, the first of which is under way. -/
def turns : Turn → List Heard → List Turn
  | t, [] => [t]
  | t, .said message ids :: rest => t :: turns { message := some message, ids } rest
  | t, .result id block :: rest => turns { t with results := t.results ++ [(id, block)] } rest
  | t, .skipped :: rest => turns t rest

/-- What was heard of a history. -/
def hearing (encode : Lua → Except Lua String) (events : List Lua) : List Heard :=
  events.map (heard encode)

/-- The turns of a history. -/
def turnsOf (encode : Lua → Except Lua String) (events : List Lua) : List Turn :=
  turns {} (hearing encode events)

/-- The fold has the messages of the turns `done` and is in the turn `t`. -/
structure InTurn (f : Folding) (done : List Lua) (t : Turn) : Prop where
  messages : f.messages = done ++ t.message.toList
  batch : f.batch = t.results.map Prod.snd
  pending : f.pending = t.ids
  answered : f.answered = (t.results.map Prod.fst).filter fun id => !id.isNil
  named : ∀ id ∈ t.ids, id.isNil = false

namespace InTurn

variable {f : Folding} {done : List Lua} {t : Turn}

theorem closed (h : InTurn f done t) :
    f.closeDangling.flush.messages = done ++ t.messages ∧ f.closeDangling.flush.batch = [] ∧
      f.closeDangling.flush.answered = [] := by
  have hany (id : Lua) (hid : id.isNil = false) :
      (f.answered.any fun a => a.eq id) = t.results.any fun r => r.1.eq id := by
    rw [h.answered, List.any_filter, List.any_map]
    congr 1
    funext r
    show (!r.1.isNil && r.1.eq id) = r.1.eq id
    cases hr : r.1 <;> cases id <;> simp_all [Lua.isNil, Lua.eq]
  have hbatch : f.closeDangling.batch = t.blocks := by
    simp only [Folding.closeDangling, h.batch, h.pending, Turn.blocks, Turn.unanswered]
    congr 2
    apply List.filter_congr
    intro id hid
    rw [hany id (h.named id hid)]
  have hmessages : f.closeDangling.messages = done ++ t.message.toList := h.messages
  simp only [Folding.flush, hbatch, hmessages, Turn.messages, Turn.answers]
  split
  · rename_i hempty
    exact ⟨by simpa using hmessages, by simpa [hbatch] using hempty, rfl⟩
  · exact ⟨by simp, rfl, rfl⟩

theorem say (h : InTurn f done t) (message : Lua) {ids : List Lua}
    (hids : ∀ id ∈ ids, id.isNil = false) :
    InTurn { f.closeDangling.flush.say message with pending := ids } (done ++ t.messages)
      { message := some message, ids } := by
  obtain ⟨hmessages, hbatch, hanswered⟩ := h.closed
  refine ⟨?_, hbatch, rfl, hanswered, hids⟩
  show f.closeDangling.flush.messages ++ [message] = _
  rw [hmessages]
  rfl

theorem hear_result (h : InTurn f done t) (id block : Lua) :
    InTurn (f.hear (.result id block)) done { t with results := t.results ++ [(id, block)] } := by
  refine ⟨h.messages, ?_, h.pending, ?_, h.named⟩
  · show f.batch ++ [block] = _
    rw [h.batch]
    simp
  · show (if id.isNil then f.answered else f.answered ++ [id]) = _
    rw [h.answered]
    by_cases hid : id.isNil = true <;> simp [hid]

end InTurn

/-- What hearing a whole history comes to. -/
theorem hear_all {f : Folding} {done : List Lua} {t : Turn} (h : InTurn f done t)
    {hs : List Heard} (hids : ∀ message ids, .said message ids ∈ hs → ∀ id ∈ ids, id.isNil = false) :
    (hs.foldl Folding.hear f).closeDangling.flush.messages =
      done ++ (turns t hs).flatMap Turn.messages := by
  induction hs generalizing f done t with
  | nil => simpa [turns] using h.closed.1
  | cons x rest ih =>
      have hrest := fun message ids hm => hids message ids (List.mem_cons_of_mem _ hm)
      cases x with
      | said message ids =>
          have hsay := h.say message (hids message ids List.mem_cons_self)
          have := ih hsay hrest
          simpa [turns, Folding.hear] using this
      | result id block =>
          have := ih (h.hear_result id block) hrest
          simpa [turns] using this
      | skipped => exact ih h hrest

theorem named_heard {ev message : Lua} {ids : List Lua} (h : heard encode ev = .said message ids) :
    ∀ id ∈ ids, id.isNil = false := by
  intro id hid
  simp only [heard] at h
  split at h
  · cases h
    cases hid
  split at h
  · cases h
    simpa using (List.mem_filter.mp hid).2
  split at h <;> cases h

theorem foldEvents_ok (f : Folding) {events : List Lua} (h : ∀ ev ∈ events, Readable encode ev) :
    foldEvents encode f events = .ok ((hearing encode events).foldl Folding.hear f) := by
  induction events generalizing f with
  | nil => rfl
  | cons ev rest ih =>
      simp only [foldEvents, foldEvent_ok f (h ev List.mem_cons_self), bind, Except.bind]
      exact ih _ fun e he => h e (List.mem_cons_of_mem _ he)

theorem foldEvents_error (f : Folding) {events : List Lua} {ev : Lua} (hmem : ev ∈ events)
    (h : ¬Readable encode ev) : ∃ e, foldEvents encode f events = .error e := by
  induction events generalizing f with
  | nil => cases hmem
  | cons x rest ih =>
      by_cases hx : Readable encode x
      · have hrest : ev ∈ rest := by
          rcases List.mem_cons.mp hmem with rfl | hrest
          · exact absurd hx h
          · exact hrest
        obtain ⟨e, he⟩ := ih (f.hear (heard encode x)) hrest
        exact ⟨e, by simp only [foldEvents, foldEvent_ok f hx, bind, Except.bind, he]⟩
      · obtain ⟨e, he⟩ := foldEvent_error f hx
        exact ⟨e, by simp only [foldEvents, he, bind, Except.bind]⟩

/-- **The fold, turn by turn.** -/
theorem foldMessages_eq {events : List Lua} (h : ∀ ev ∈ events, Readable encode ev) :
    foldMessages encode events = .ok ((turnsOf encode events).flatMap Turn.messages) := by
  have hinit : InTurn {} [] {} := ⟨rfl, rfl, rfl, rfl, nofun⟩
  have hall := @hear_all _ _ _ hinit (hearing encode events) fun message ids hm => by
    obtain ⟨ev, -, hev⟩ := List.mem_map.mp hm
    exact named_heard hev
  simp only [foldMessages, foldEvents_ok {} h, bind, Except.bind, hall, List.nil_append, turnsOf]

theorem readable_of_foldMessages {events messages : List Lua}
    (h : foldMessages encode events = .ok messages) : ∀ ev ∈ events, Readable encode ev := by
  intro ev hev
  by_contra hnot
  obtain ⟨e, he⟩ := foldEvents_error {} hev hnot
  simp only [foldMessages, he, bind, Except.bind] at h
  cases h

/-- What the first turn has, a message starts and a result keeps, every turn
has. -/
theorem turns_all {P : Turn → Prop} {t : Turn} {hs : List Heard} (ht : P t)
    (hsaid : ∀ message ids, .said message ids ∈ hs → P { message := some message, ids })
    (hresult : ∀ (u : Turn) id block, .result id block ∈ hs → P u →
      P { u with results := u.results ++ [(id, block)] }) :
    ∀ u ∈ turns t hs, P u := by
  induction hs generalizing t with
  | nil =>
      intro u hu
      cases List.mem_singleton.mp hu
      exact ht
  | cons x rest ih =>
      have hsaid' := fun message ids hm => hsaid message ids (List.mem_cons_of_mem _ hm)
      have hresult' := fun (u : Turn) id block hm => hresult u id block (List.mem_cons_of_mem _ hm)
      cases x with
      | said message ids =>
          intro u hu
          rcases List.mem_cons.mp hu with rfl | hu
          · exact ht
          · exact ih (hsaid message ids List.mem_cons_self) hsaid' hresult' u hu
      | result id block =>
          exact ih (hresult t id block List.mem_cons_self ht) hsaid' hresult'
      | skipped => exact ih ht hsaid' hresult'

/-- The turn under way keeps its message, and its results so far. -/
theorem turns_first (t : Turn) (hs : List Heard) :
    ∃ rs more, turns t hs = { t with results := t.results ++ rs } :: more := by
  induction hs generalizing t with
  | nil => exact ⟨[], [], by simp [turns]⟩
  | cons x rest ih =>
      cases x with
      | said message ids => exact ⟨[], turns { message := some message, ids } rest, by simp [turns]⟩
      | result id block =>
          obtain ⟨rs, more, h⟩ := ih { t with results := t.results ++ [(id, block)] }
          refine ⟨(id, block) :: rs, more, ?_⟩
          rw [turns, h, List.append_assoc]
          rfl
      | skipped => exact ih t

/-- A message ends the turn before it. -/
theorem turns_said (t : Turn) (before after : List Heard) (message : Lua) (ids : List Lua) :
    turns t (before ++ .said message ids :: after) =
      turns t before ++ turns { message := some message, ids } after := by
  induction before generalizing t with
  | nil => rfl
  | cons x rest ih => cases x <;> simp only [List.cons_append, turns, ih]

end

/-! ### Messages and blocks -/

@[simp] theorem role_userMessage (content : Lua) :
    (userMessage content).get "role" = .str "user" := by
  rw [userMessage, Lua.get_record (by simp)]
  rfl

@[simp] theorem content_userMessage (content : Lua) :
    (userMessage content).get "content" = content := by
  rw [userMessage, Lua.get_record (by simp)]
  rfl

@[simp] theorem role_assistantMessage (content : Lua) :
    (assistantMessage content).get "role" = .str "assistant" := by
  rw [assistantMessage, Lua.get_record (by simp)]
  rfl

@[simp] theorem content_assistantMessage (content : Lua) :
    (assistantMessage content).get "content" = content := by
  rw [assistantMessage, Lua.get_record (by simp)]
  rfl

/-- A block that is a result of the call with this id. -/
structure IsResult (id block : Lua) : Prop where
  type : block.get "type" = .str "tool_result"
  id : block.get "tool_use_id" = id

theorem isResult_interruptedBlock (id : Lua) : IsResult id (interruptedBlock id) := by
  constructor <;>
    · rw [interruptedBlock, Lua.get_record (by simp)]
      rfl

section

variable {encode : Lua → Except Lua String}

theorem isResult_toolResultBlock {data block : Lua}
    (h : toolResultBlock encode data = .ok block) : IsResult (data.get "call_id") block := by
  simp only [toolResultBlock] at h
  cases htext : resultText encode (data.get "result") with
  | error e =>
      rw [htext] at h
      cases h
  | ok text =>
      rw [htext] at h
      cases h
      constructor <;>
        · rw [Lua.get_record (by simp)]
          rfl

/-- What somebody said, and the ids that go with it. -/
inductive IsSaid : Lua → List Lua → Prop
  | user (content : Lua) : IsSaid (userMessage content) []
  | assistant (content : Lua) : IsSaid (assistantMessage content) (callIds content)

theorem isSaid_heard {ev message : Lua} {ids : List Lua} (h : heard encode ev = .said message ids) :
    IsSaid message ids := by
  simp only [heard] at h
  split at h
  · cases h
    exact .user _
  split at h
  · cases h
    exact .assistant _
  split at h <;> cases h

theorem isResult_heard {ev id block : Lua} (hev : Readable encode ev)
    (h : heard encode ev = .result id block) :
    IsResult id block ∧ toolResultBlock encode (dataOf ev) = .ok block ∧
      isKind "tool_result" ev = true := by
  simp only [heard] at h
  split at h
  · cases h
  split at h
  · cases h
  split at h
  · rename_i hkind
    obtain ⟨b, hb⟩ := hev.renders hkind
    simp only [resultBlock, hb] at h
    cases h
    exact ⟨isResult_toolResultBlock hb, hb, hkind⟩
  · cases h

/-- A turn of a history that can be read. -/
structure Turn.Proper (t : Turn) : Prop where
  said : t.message = none ∧ t.ids = [] ∨ ∃ message, t.message = some message ∧ IsSaid message t.ids
  results : ∀ r ∈ t.results, IsResult r.1 r.2

theorem turnsOf_proper {events : List Lua} (h : ∀ ev ∈ events, Readable encode ev) :
    ∀ t ∈ turnsOf encode events, t.Proper := by
  apply turns_all
  · exact ⟨.inl ⟨rfl, rfl⟩, nofun⟩
  · intro message ids hm
    obtain ⟨ev, -, hev⟩ := List.mem_map.mp hm
    exact ⟨.inr ⟨message, rfl, isSaid_heard hev⟩, nofun⟩
  · intro t id block hm ht
    obtain ⟨ev, hmem, hev⟩ := List.mem_map.mp hm
    refine ⟨ht.said, fun r hr => ?_⟩
    rcases List.mem_append.mp hr with hr | hr
    · exact ht.results r hr
    · cases List.mem_singleton.mp hr
      exact (isResult_heard (h ev hmem) hev).1

end

/-! ### The whole request -/

section

variable {encode : Lua → Except Lua String} {events : List Lua} {device : Device}

/-- The request with these messages, and what the device puts beside them. -/
def requestOf (device : Device) (messages : List Lua) : Lua :=
  record [("messages", array messages), ("system", device.system),
    ("tools", device.tools.elim .nil wireTools)]

@[simp] theorem requestOf_messages (messages : List Lua) :
    (requestOf device messages).get "messages" = array messages := by
  rw [requestOf, Lua.get_record (by simp)]
  rfl

theorem fold_array :
    fold encode (array events) device = (foldMessages encode events).map (requestOf device) := by
  simp only [fold, array, Lua.orElse, Lua.truthy, if_true, Lua.ipairs, bind, Except.bind]
  cases foldMessages encode events <;> rfl

/-- **The fold of a history**, exactly where every event can be read. -/
theorem fold_array_ok {request : Lua} :
    fold encode (array events) device = .ok request ↔
      (∀ ev ∈ events, Readable encode ev) ∧
        request = requestOf device ((turnsOf encode events).flatMap Turn.messages) := by
  rw [fold_array]
  constructor
  · intro h
    cases hfolded : foldMessages encode events with
    | error e =>
        rw [hfolded] at h
        cases h
    | ok messages =>
        have hread := readable_of_foldMessages hfolded
        rw [hfolded] at h
        rw [foldMessages_eq hread] at hfolded
        cases hfolded
        cases h
        exact ⟨hread, rfl⟩
  · rintro ⟨hread, rfl⟩
    rw [foldMessages_eq hread]
    rfl

end

end AgentBlock.Shell
