/-
AgentBlock/Policy/Compact.lean

When a record is to be folded into a summary, and the request that asks for it.

Whether a compaction is due is read off the log since the last mark of one.  The
request is the one the loop's own fold builds, its calls and results rewritten as
prose, with the instruction for its last message.

Main results:

* `Compact.le_of_due` — beats enough have begun since the last mark;
* `appendPrompt_prosed` — the request that is sent, beside the one that was
  built: what it holds, what it leaves out, and what it ends with.
-/
import AgentBlock.Policy.Ledger
import AgentBlock.Policy.WholeBeats
import Mathlib.Data.List.TakeWhile

namespace AgentBlock.Policy

open Lua (record array)
open Shell (isKind dataOf Device userMessage)

def COMPACT_SKIPPED_KIND : String := "compact_skipped"

def DEFAULT_COMPACT_AT : LuaNumber := .ofRat (8 / 10)

def DEFAULT_COMPACT_MIN_BEATS : Nat := 2

def DEFAULT_COMPACT_PROMPT : String :=
  "Stop and write a summary of this conversation so far, for yourself: the earlier " ++
    "part will be replaced by what you write, and the next request will begin from it. " ++
    "State the task; what has been done and what the results were; what is still to do, " ++
    "in order; and every decision, fact, path or value you must not lose. Write prose, " ++
    "no tool call."

/-! ### When it is due -/

/-- A mark: a summary, or what stands where one came back empty. -/
def isMark (ev : Lua) : Bool := isKind SUMMARY_KIND ev || isKind COMPACT_SKIPPED_KIND ev

/-- The place of the latest mark, from one on, and 0 where there is none. -/
def lastCutAt (events : List Lua) : Nat := (events.reverse.dropWhile fun ev => !isMark ev).length

/-- What a fold reported, where an event holds it. -/
def reportOf (ev : Lua) : Option Lua :=
  if isKind "llm_request" ev then
    let report := (dataOf ev).get "window"
    if report.isTable then some report else none
  else none

/-- The fold left beats out. -/
def reportsDropped (report : Lua) : Bool :=
  match report.get "dropped" with
  | .table items _ => !items.isEmpty
  | _ => false

/-- The request took this share of the window, or more. -/
def reportsShare (share : LuaNumber) (report : Lua) : Bool :=
  match report.get "after", report.get "limit" with
  | .num after, .num limit => (LuaNumber.int 0).lt limit && share.le (after.div limit)
  | _, _ => false

/-- **Why a compaction is due**, read off what the folds since the last mark
reported. -/
def dueOf (events : List Lua) (share : LuaNumber) (minBeats : Nat) : Option String :=
  let since := events.drop (lastCutAt events)
  if beatCount since < minBeats then none
  else
    match (since.filterMap reportOf).getLast? with
    | none => none
    | some report =>
        if reportsDropped report then some "dropped"
        else if reportsShare share report then some "share"
        else none

/-! ### As prose -/

section

variable (encode : Lua → Except Lua String) (tostring : Lua → String)

/-- One value as the text the prose names it by. -/
def asText : Lua → Except Lua String
  | .str s => .ok s
  | .nil => .ok ""
  | v => encode v

/-- What a block is written as; a block of no kind the prose knows is left out. -/
def blockLine (block : Lua) : Except Lua (Option String) :=
  match block.get "type" with
  | .str "text" => .ok (block.get "text").asStr
  | .str "tool_use" => do
      let input ← asText encode (block.get "input")
      .ok (some ("[called " ++ nameOf tostring (block.get "name") ++ " with " ++ input ++ "]"))
  | .str "tool_result" => do
      let content ← asText encode (block.get "content")
      let failed := (block.get "is_error").eq (.bool true)
      .ok (some ((if failed then "[tool failed] " else "[tool result] ") ++ content))
  | _ => .ok none

/-- The blocks a loop over `ipairs` meets: a `nil` ends it. -/
def beforeNil (items : List Lua) : List Lua := items.takeWhile fun v => !v.isNil

/-- The lines of a message's content. -/
def proseLines (content : Lua) : Except Lua (List String) :=
  match content with
  | .table items _ => do
      let lines ← (beforeNil items).mapM (blockLine encode tostring)
      .ok (lines.filterMap id)
  | v => do
      let text ← asText encode v
      .ok [text]

/-- A message's content as prose. -/
def proseOf (content : Lua) : Except Lua String :=
  (proseLines encode tostring content).map "\n".intercalate

/-- One message as prose; of one that comes to nothing there is none. -/
def proseMessage (message : Lua) : Except Lua (Option Lua) := do
  let text ← proseOf encode tostring (← message.index "content")
  .ok (if text = "" then none
    else some (record [("role", message.get "role"), ("content", .str text)]))

/-- A request, its history as prose, with one user message more and no tools. -/
def appendPrompt (request : Lua) (prompt : String) : Except Lua Lua := do
  if !request.isTable then
    .error (.str ("bad argument #1 to 'for iterator' (table expected, got " ++ request.type ++ ")"))
  let messages ← ((request.get "messages").orElse (.table [] [])).ipairs
  let messages ← messages.mapM (proseMessage encode tostring)
  .ok ((request.set "messages" (array (messages.filterMap id ++ [userMessage (.str prompt)]))).set
    "tools" .nil)

end

/-! ### The factory -/

/-- A loop's own fold. -/
abbrev WindowFold : Type := List Lua → Device → Except Lua (Lua × WindowReport)

structure CompactOpts where
  share : Lua := .nil
  minBeats : Lua := .nil
  prompt : Lua := .nil
  fold : Option WindowFold

/-- When to compact, and how it is asked for. -/
structure Compact where
  share : LuaNumber
  minBeats : Nat
  prompt : String
  inner : WindowFold
  share_pos : share.le (.int 0) = false
  share_le : (LuaNumber.int 1).lt share = false
  minBeats_pos : 1 ≤ minBeats
  prompt_ne : prompt ≠ ""

/-- The whole number a number is. -/
def toWhole : LuaNumber → Nat
  | .int n => n.toNat
  | .float q => ⌊q⌋.toNat
  | _ => 0

theorem one_le_toWhole {v : Lua} {n : LuaNumber} (h : wholeAtLeast v 1 = some n) :
    1 ≤ toWhole n := by
  cases v with
  | num m =>
      rw [wholeAtLeast] at h
      split at h
      · next hm =>
        obtain ⟨hwhole, hle⟩ := Bool.and_eq_true_iff.mp hm
        obtain rfl := Option.some.inj h
        cases m with
        | int k =>
            have hk : (1 : Int) ≤ k := of_decide_eq_true hle
            show 1 ≤ k.toNat
            omega
        | float q =>
            have hq : ((1 : Int) : Rat) ≤ q := of_decide_eq_true hle
            have hfloor : 1 ≤ ⌊q⌋ := Int.le_floor.mpr hq
            show 1 ≤ ⌊q⌋.toNat
            omega
        | negZero => cases hle
        | inf negative => cases hwhole
        | nan => cases hwhole
      · cases h
  | _ => cases h

section

variable (tostring : Lua → String)

theorem default_compact_at_share : DEFAULT_COMPACT_AT.le (.int 0) = false ∧
    (LuaNumber.int 1).lt DEFAULT_COMPACT_AT = false := by
  decide +kernel

/-- The share of the window that makes a request full. -/
def shareOf (v : Lua) : Except Lua
    { share : LuaNumber // share.le (.int 0) = false ∧ (LuaNumber.int 1).lt share = false } :=
  let refused := .error (.str ("policy.compact: at must be a number in (0, 1], got " ++ tostring v))
  match v with
  | .nil => .ok ⟨DEFAULT_COMPACT_AT, default_compact_at_share⟩
  | .num share =>
      if h : share.le (.int 0) = false ∧ (LuaNumber.int 1).lt share = false then .ok ⟨share, h⟩
      else refused
  | _ => refused

/-- How many beats must follow the last mark. -/
def minBeatsOf (v : Lua) : Except Lua { n : Nat // 1 ≤ n } :=
  let refused := .error (.str ("policy.compact: min_beats must be a whole number >= 1, got " ++
    tostring v))
  match v with
  | .nil => .ok ⟨DEFAULT_COMPACT_MIN_BEATS, by decide⟩
  | v =>
      match h : wholeAtLeast v 1 with
      | some n => .ok ⟨toWhole n, one_le_toWhole h⟩
      | none => refused

/-- The instruction the summarising request ends with. -/
def promptOf (v : Lua) : Except Lua { prompt : String // prompt ≠ "" } :=
  let refused := .error (.str "policy.compact: prompt must be a non-empty string when given")
  match v with
  | .nil => .ok ⟨DEFAULT_COMPACT_PROMPT, by decide⟩
  | .str prompt => if h : prompt ≠ "" then .ok ⟨prompt, h⟩ else refused
  | _ => refused

/-- **`policy.compact`**: an option that is not what it must be is refused. -/
def compact (opts : CompactOpts) : Except Lua Compact := do
  let share ← shareOf tostring opts.share
  let minBeats ← minBeatsOf tostring opts.minBeats
  let prompt ← promptOf opts.prompt
  match opts.fold with
  | none =>
      .error (.str
        "policy.compact: fold is required — the loop's own fold, fn(events, device) -> request")
  | some inner =>
      .ok { share := share.1, minBeats := minBeats.1, prompt := prompt.1, inner,
            share_pos := share.2.1, share_le := share.2.2, minBeats_pos := minBeats.2,
            prompt_ne := prompt.2 }

end

namespace Compact

variable (encode : Lua → Except Lua String) (tostring : Lua → String) (c : Compact)

/-- The question a loop asks between beats. -/
def due (log : List Lua × Bool) : Except Lua (Option String) := do
  let events ← wholeLog log "policy.compact due"
  .ok (dueOf events c.share c.minBeats)

/-- The fold of the summarising beat. -/
def fold : WindowFold := fun events device => do
  let (request, report) ← c.inner events device
  let request ← appendPrompt encode tostring request c.prompt
  .ok (request, report)

end Compact

/-! ### Marks and beats -/

section

variable {events : List Lua}

/-- What follows the latest mark has none. -/
theorem sinceCut (events : List Lua) :
    ∃ front, events = front ++ events.drop (lastCutAt events) ∧
      ∀ ev ∈ events.drop (lastCutAt events), isMark ev = false := by
  have hsplit : events = (events.reverse.dropWhile fun ev => !isMark ev).reverse ++
      (events.reverse.takeWhile fun ev => !isMark ev).reverse := by
    rw [← List.reverse_append, List.takeWhile_append_dropWhile, List.reverse_reverse]
  have hdrop : events.drop (lastCutAt events) =
      (events.reverse.takeWhile fun ev => !isMark ev).reverse := by
    calc events.drop (lastCutAt events)
        = ((events.reverse.dropWhile fun ev => !isMark ev).reverse ++
            (events.reverse.takeWhile fun ev => !isMark ev).reverse).drop (lastCutAt events) :=
          congrArg (List.drop (lastCutAt events)) hsplit
      _ = _ := List.drop_left' List.length_reverse
  refine ⟨_, by rw [hdrop]; exact hsplit, fun ev hev => ?_⟩
  rw [hdrop, List.mem_reverse] at hev
  have hno : (!isMark ev) = true :=
    @List.mem_takeWhile_imp _ (fun ev => !isMark ev) events.reverse ev hev
  exact Bool.not_eq_true _ ▸ fun h => by rw [h] at hno; cases hno

theorem le_of_dueOf {share : LuaNumber} {minBeats : Nat} {why : String}
    (h : dueOf events share minBeats = some why) :
    minBeats ≤ beatCount (events.drop (lastCutAt events)) := by
  unfold dueOf at h
  simp only at h
  split at h
  · cases h
  · next hle => exact not_lt.mp hle

/-- **Beats enough have begun** since the latest mark where one is due. -/
theorem Compact.le_of_due {c : Compact} {why : String}
    (h : c.due (events, false) = .ok (some why)) :
    c.minBeats ≤ beatCount (events.drop (lastCutAt events)) :=
  le_of_dueOf (Except.ok.inj h)

end

/-! ### What the prose holds -/

section

variable (encode : Lua → Except Lua String) (tostring : Lua → String)

/-- What a block is said as: a text as it is, a call and a result in a line
each, and anything else not at all. -/
inductive SaidAs (block : Lua) : Option String → Prop
  | text {t : String} : block.get "type" = .str "text" → block.get "text" = .str t →
      SaidAs block (some t)
  | call {input : String} : block.get "type" = .str "tool_use" →
      asText encode (block.get "input") = .ok input →
      SaidAs block (some ("[called " ++ nameOf tostring (block.get "name") ++ " with " ++
        input ++ "]"))
  | result {content : String} : block.get "type" = .str "tool_result" →
      asText encode (block.get "content") = .ok content →
      SaidAs block (some ((if (block.get "is_error").eq (.bool true) then "[tool failed] "
        else "[tool result] ") ++ content))
  | other : block.get "type" ≠ .str "tool_use" → block.get "type" ≠ .str "tool_result" →
      (block.get "type" = .str "text" → (block.get "text").asStr = none) → SaidAs block none

/-- The lines a content is said in: one for each block that is said, or the one
text that it is. -/
inductive SaidIn : Lua → List String → Prop
  | text {content : Lua} {t : String} : content.isTable = false →
      asText encode content = .ok t → SaidIn content [t]
  | blocks {items : List Lua} {fields : List (String × Lua)} {lines : List (Option String)} :
      List.Forall₂ (SaidAs encode tostring) (beforeNil items) lines →
      SaidIn (.table items fields) (lines.filterMap id)

/-- A message that says something: a role, and lines. -/
def carried (said : Lua × List String) : Option Lua :=
  if "\n".intercalate said.2 = "" then none
  else some (record [("role", said.1), ("content", .str ("\n".intercalate said.2))])

/-- **A request as prose**: each message under its role, its lines in order, the
instruction after them, no block, no tools, and the rest as it was. -/
structure Prosed (prompt : String) (request out : Lua) : Prop where
  said : ∃ messages said,
    ((request.get "messages").orElse (.table [] [])).ipairs = .ok messages ∧
    List.Forall₂ (fun message (s : Lua × List String) => message.get "role" = s.1 ∧
      SaidIn encode tostring (message.get "content") s.2) messages said ∧
    out.get "messages" = array (said.filterMap carried ++ [userMessage (.str prompt)])
  strings : ∃ messages, out.get "messages" = array messages ∧
    ∀ message ∈ messages, ∃ text, message.get "content" = .str text
  tools : out.get "tools" = .nil
  others : ∀ key, key ≠ "messages" → key ≠ "tools" → out.get key = request.get key

end

section

variable {encode : Lua → Except Lua String} {tostring : Lua → String}

theorem saidAs_of_blockLine {block : Lua} {line : Option String}
    (h : blockLine encode tostring block = .ok line) : SaidAs encode tostring block line := by
  unfold blockLine at h
  split at h
  · next htype =>
    cases Except.ok.inj h
    cases htext : block.get "text" with
    | str t => exact .text htype htext
    | _ =>
        refine .other (fun h => ?_) (fun h => ?_) fun _ => by rw [htext]; rfl
        all_goals exact absurd (Lua.str.inj (htype.symm.trans h)) (by decide)
  · next htype =>
    obtain ⟨input, hinput, h⟩ := Except.bind_eq_ok.mp h
    cases Except.ok.inj h
    exact .call htype hinput
  · next htype =>
    obtain ⟨content, hcontent, h⟩ := Except.bind_eq_ok.mp h
    cases Except.ok.inj h
    exact .result htype hcontent
  · next htext huse hresult =>
    cases Except.ok.inj h
    exact .other huse hresult fun h => absurd h htext

theorem saidIn_of_proseLines {content : Lua} {lines : List String}
    (h : proseLines encode tostring content = .ok lines) :
    SaidIn encode tostring content lines := by
  unfold proseLines at h
  split at h
  · obtain ⟨all, hall, h⟩ := Except.bind_eq_ok.mp h
    cases Except.ok.inj h
    exact .blocks ((Except.forall₂_of_mapM hall).imp fun _ _ => saidAs_of_blockLine)
  · next hno =>
    obtain ⟨text, htext, h⟩ := Except.bind_eq_ok.mp h
    cases Except.ok.inj h
    refine .text ?_ htext
    cases content with
    | table items fields => exact absurd rfl (hno items fields)
    | _ => rfl

theorem carried_of_proseMessage {message : Lua} {out : Option Lua}
    (h : proseMessage encode tostring message = .ok out) :
    ∃ lines, SaidIn encode tostring (message.get "content") lines ∧
      out = carried (message.get "role", lines) := by
  obtain ⟨content, hcontent, h⟩ := Except.bind_eq_ok.mp h
  obtain ⟨text, htext, h⟩ := Except.bind_eq_ok.mp h
  obtain ⟨lines, hlines, rfl⟩ := Except.map_eq_ok.mp htext
  cases Except.ok.inj h
  exact ⟨lines, Lua.index_ok hcontent ▸ saidIn_of_proseLines hlines, rfl⟩

/-- What is said of each message of a history. -/
theorem exists_said {messages : List Lua} {out : List (Option Lua)}
    (h : messages.mapM (proseMessage encode tostring) = .ok out) :
    ∃ said : List (Lua × List String),
      List.Forall₂ (fun message s => message.get "role" = s.1 ∧
        SaidIn encode tostring (message.get "content") s.2) messages said ∧
      out = said.map carried := by
  have hout := Except.forall₂_of_mapM h
  clear h
  induction hout with
  | nil => exact ⟨[], .nil, rfl⟩
  | cons hfirst _ ih =>
      obtain ⟨lines, hlines, rfl⟩ := carried_of_proseMessage hfirst
      obtain ⟨said, hsaid, rfl⟩ := ih
      exact ⟨(_, lines) :: said, .cons ⟨rfl, hlines⟩ hsaid, rfl⟩

/-- What is carried is a message of text. -/
theorem content_of_carried {s : Lua × List String} {message : Lua} (h : carried s = some message) :
    ∃ text, message.get "content" = .str text := by
  unfold carried at h
  split at h
  · cases h
  · cases Option.some.inj h
    refine ⟨_, (Lua.get_record ?_).trans rfl⟩
    show ["role", "content"].Nodup
    decide

/-- **The request that is sent** beside the one that was built. -/
theorem appendPrompt_prosed {request out : Lua} {prompt : String}
    (h : appendPrompt encode tostring request prompt = .ok out) :
    Prosed encode tostring prompt request out := by
  unfold appendPrompt at h
  cases request with
  | table items fields =>
      obtain ⟨messages, hmessages, h⟩ := Except.bind_eq_ok.mp h
      obtain ⟨sent, hsent, h⟩ := Except.bind_eq_ok.mp h
      obtain rfl := Except.ok.inj h
      obtain ⟨said, hsaid, rfl⟩ := exists_said hsent
      have hfilter : (said.map carried).filterMap id = said.filterMap carried := by
        rw [List.filterMap_map]
        rfl
      have hout : (((Lua.table items fields).set "messages"
          (array ((said.map carried).filterMap id ++ [userMessage (.str prompt)]))).set
            "tools" .nil).get "messages" =
          array (said.filterMap carried ++ [userMessage (.str prompt)]) := by
        rw [Lua.get_set_of_ne (by decide), Lua.get_set_self, hfilter]
      refine ⟨⟨messages, said, hmessages, hsaid, hout⟩, ⟨_, hout, fun message hmem => ?_⟩, ?_, ?_⟩
      · rcases List.mem_append.mp hmem with hmem | hmem
        · obtain ⟨s, -, hs⟩ := List.mem_filterMap.mp hmem
          exact content_of_carried hs
        · rw [List.mem_singleton.mp hmem]
          exact ⟨prompt, rfl⟩
      · exact Lua.get_set_self _ _
      · intro key hmessages htools
        rw [Lua.get_set_of_ne (Ne.symm htools), Lua.get_set_of_ne (Ne.symm hmessages)]
  | _ => cases h

/-- The value a block is named by, beside its name. -/
def blockValues (block : Lua) : List Lua :=
  match block.get "type" with
  | .str "tool_use" => [block.get "input"]
  | .str "tool_result" => [block.get "content"]
  | _ => []

/-- The values the prose of a content names. -/
def proseValues : Lua → List Lua
  | .table items _ => (beforeNil items).flatMap blockValues
  | v => [v]

theorem exists_blockLine {block : Lua}
    (h : ∀ v ∈ blockValues block, ∃ t, asText encode v = .ok t) :
    ∃ line, blockLine encode tostring block = .ok line := by
  unfold blockLine
  unfold blockValues at h
  split
  · exact ⟨_, rfl⟩
  · next htype =>
    rw [htype] at h
    obtain ⟨input, hinput⟩ := h _ List.mem_cons_self
    rw [hinput]
    exact ⟨_, rfl⟩
  · next htype =>
    rw [htype] at h
    obtain ⟨content, hcontent⟩ := h _ List.mem_cons_self
    rw [hcontent]
    exact ⟨_, rfl⟩
  · exact ⟨_, rfl⟩

theorem exists_proseMessage {message : Lua} (hindex : message.isIndexable = true)
    (h : ∀ v ∈ proseValues (message.get "content"), ∃ t, asText encode v = .ok t) :
    ∃ out, proseMessage encode tostring message = .ok out := by
  have hlines : ∃ lines, proseLines encode tostring (message.get "content") = .ok lines := by
    unfold proseLines
    split
    · next items fields hcontent =>
      rw [hcontent] at h
      obtain ⟨lines, hlines⟩ := Except.exists_mapM_eq_ok fun block
          (hblock : block ∈ beforeNil items) =>
        @exists_blockLine encode tostring block fun v hv =>
          h v (List.mem_flatMap.mpr ⟨block, hblock, hv⟩)
      rw [hlines]
      exact ⟨_, rfl⟩
    · next hno =>
      obtain ⟨text, htext⟩ := h (message.get "content") (by
        cases hcontent : message.get "content" with
        | table items fields => exact absurd hcontent (hno items fields)
        | _ => exact List.mem_singleton_self _)
      rw [htext]
      exact ⟨_, rfl⟩
  obtain ⟨lines, hlines⟩ := hlines
  unfold proseMessage proseOf
  rw [Lua.index_of_isIndexable hindex]
  show ∃ out, ((proseLines encode tostring (message.get "content")).map _ >>= _) = .ok out
  rw [hlines]
  exact ⟨_, rfl⟩

/-- **A request is written as prose** where what it names is. -/
theorem exists_appendPrompt {request : Lua} {messages : List Lua} (prompt : String)
    (htable : request.isTable = true)
    (hmessages : ((request.get "messages").orElse (.table [] [])).ipairs = .ok messages)
    (hindex : ∀ message ∈ messages, message.isIndexable = true)
    (h : ∀ message ∈ messages, ∀ v ∈ proseValues (message.get "content"),
      ∃ t, asText encode v = .ok t) :
    ∃ out, appendPrompt encode tostring request prompt = .ok out := by
  obtain ⟨sent, hsent⟩ := Except.exists_mapM_eq_ok fun message (hmem : message ∈ messages) =>
    @exists_proseMessage encode tostring message (hindex message hmem) (h message hmem)
  unfold appendPrompt
  rw [htable, hmessages]
  show ∃ out, (messages.mapM (proseMessage encode tostring) >>= fun messages => _) = Except.ok out
  rw [hsent]
  exact ⟨_, rfl⟩

end

end AgentBlock.Policy
