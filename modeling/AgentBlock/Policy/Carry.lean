/-
AgentBlock/Policy/Carry.lean

The note about the beat that failed, put in front of the next request.

A note is cut by bytes, so it may end inside a character, and is no text then.  The
tables a request is made of stand in a memory, which shows that those handed in are
not written to.

Main results:

* `beatsOf_eq` — the beats of a log, with the events of each;
* `carries_iff` — a carried request is what it should be exactly if the note of its
  failures is not cut inside a character.
-/
import AgentBlock.Lib.Quoted
import AgentBlock.Lib.Utf8
import AgentBlock.Policy.WholeBeats
import Mathlib.Data.List.TakeWhile

namespace AgentBlock.Policy

open Quoted (quoted)
open Shell (isKind dataOf)
open Utf8

/-! ### Rendering -/

/-- The keys of a table, as text, with its values. -/
def entriesOf (items : List Lua) (fields : List (String × Lua)) : List (String × Lua) :=
  ((items.zipIdx.map fun p => (toString (p.2 + 1), p.1)) ++ fields).filter fun e => !e.2.isNil

section

variable (tostring : Lua → String)

/-- `canonical`, with so many levels of tables left to render. -/
def canonical : ℕ → Lua → String
  | _, .str s => quoted s
  | _, .nil => "nil"
  | _, .bool b => tostring (.bool b)
  | _, .num n => tostring (.num n)
  | 0, .table _ _ => "<deep>"
  | levels + 1, .table items fields =>
      let entries := (entriesOf items fields).mergeSort fun a b => a.1 ≤ b.1
      "\x7b" ++ String.intercalate "," (entries.map fun e => e.1 ++ "=" ++ canonical levels e.2) ++ "\x7d"
  | _, v => "<" ++ v.type ++ ">"

def MAX_CANONICAL_DEPTH : ℕ := 8

/-! ### Beats -/

/-- An event added to its beat, which may be a new one. -/
def addEvent (order : List (Label × List Lua)) (id : Label) (ev : Lua) :
    List (Label × List Lua) :=
  if id ∈ order.map Prod.fst then
    order.map fun beat => if beat.1 = id then (beat.1, beat.2 ++ [ev]) else beat
  else order ++ [(id, [ev])]

/-- `beats_of`. -/
def beatsOf (events : List Lua) : List (Label × List Lua) :=
  events.foldl (fun order ev => match beatOf ev with
    | some id => addEvent order id ev
    | none => order) []

/-! ### The note -/

/-- One answered tool call. -/
structure ToolPair where
  beat : Label
  callId : Lua
  name : Lua
  input : Lua
  result : Lua
  ok : Bool

/-- The key of a table a value is; a table or a function is a key only it has, and
`nil` is none. -/
def idKey : Lua → Option (Option Label)
  | .null => some none
  | v => (labelOf v).map some

/-- The calls of a beat by their ids, the last of an id first. -/
def calledOf (events : List Lua) : List (Option Label × Lua) :=
  events.foldl (fun called ev =>
    if isKind "tool_call" ev then
      match idKey ((dataOf ev).get "call_id") with
      | some key => (key, dataOf ev) :: called
      | none => called
    else called) []

/-- `pair_of`. -/
def pairOf (beat : Label) (called : List (Option Label × Lua)) (data : Lua) : ToolPair :=
  let call : Lua := ((idKey (data.get "call_id")).bind fun key => called.lookup key).getD .nil
  { beat
    callId := data.get "call_id"
    name := call.get "name"
    input := call.get "args"
    result := data.get "result"
    ok := !(data.get "ok").eq (.bool false) }

def renderResult (result : Lua) : String :=
  match result with
  | .str s => s
  | result => canonical tostring MAX_CANONICAL_DEPTH result

def reasonFor (pair : ToolPair) : String :=
  (if pair.name.isNil then "a tool call" else "tool '" ++ tostring pair.name ++ "'") ++
    " failed: " ++ renderResult tostring pair.result

/-- What an event of a beat says went wrong, if it says so. -/
def reasonOf (failed : ToolPair → Bool) (beat : Label) (called : List (Option Label × Lua))
    (ev : Lua) : Option String :=
  if isKind "llm_call_failed" ev then
    some ("the model call did not come off: " ++ tostring ((dataOf ev).get "error"))
  else if isKind "tool_result" ev then
    let pair := pairOf beat called (dataOf ev)
    if failed pair then some (reasonFor tostring pair) else none
  else none

def NOTE_PREFIX : String := "the previous beat did not complete: "

/-- `ELLIPSIS`, in bytes. -/
def ELLIPSIS : Bytes := encode "...".toList

/-- A text, cut to so many bytes. -/
def trim (text : Bytes) (limit : ℕ) : Bytes :=
  if text.length ≤ limit then text
  else if limit ≤ ELLIPSIS.length then text.take limit
  else text.take (limit - ELLIPSIS.length) ++ ELLIPSIS

/-- The whole note of these reasons. -/
def noteText (reasons : List String) : Bytes :=
  encode (NOTE_PREFIX ++ String.intercalate "; " reasons).toList

def failureNote (events : List Lua) (limit : ℕ) (failed : ToolPair → Bool) : Option Bytes :=
  match (beatsOf events).getLast? with
  | none => none
  | some previous =>
      let called := calledOf previous.2
      let reasons := previous.2.filterMap (reasonOf tostring failed previous.1 called)
      if reasons = [] then none else some (trim (noteText reasons) limit)

end

/-! ### Requests -/

/-- A value of a request: a table is the place it stands at. -/
inductive Value where
  | nil
  | null
  | bool (b : Bool)
  | num (n : LuaNumber)
  | str (s : Bytes)
  | ref (place : ℕ)
  | other (type : String)

/-- A table: its sequence, its fields, and whether it is tagged as an array. -/
structure Table where
  items : List Value := []
  fields : List (String × Value) := []
  tagged : Bool := false

/-- The tables there are. -/
abbrev Memory := List Table

/-- A new table, and where it stands. -/
def Memory.alloc (m : Memory) (t : Table) : Memory × ℕ := (m ++ [t], m.length)

/-- The table at a place, written to. -/
def Memory.update (m : Memory) (place : ℕ) (f : Table → Table) : Memory := List.modify m place f

/-- A field of a table. -/
def Table.get (t : Table) (key : String) : Value := (t.fields.lookup key).getD .nil

/-- `t[key] = v`. -/
def Table.set (t : Table) (key : String) (v : Value) : Table :=
  { t with fields := (key, v) :: t.fields.filter fun f => f.1 ≠ key }

/-- The values a loop over `ipairs(v or {})` takes. -/
def Memory.elements (m : Memory) (v : Value) : Except Lua (List Value) :=
  match v with
  | .nil => .ok []
  | .bool false => .ok []
  | .str _ => .ok []
  | .ref place =>
      .ok ((((m[place]?).map Table.items).getD []).takeWhile fun
        | .nil => false
        | _ => true)
  | _ => .error (.str "bad argument #1 to 'for iterator' (table expected)")

/-- A request with a note as a user message in front of the rest: a table and an
array of messages of its own. -/
def prependNote (m : Memory) (request : ℕ) (note : Bytes) : Except Lua (Memory × ℕ) := do
  let given := (m[request]?).getD {}
  let (m, out) := m.alloc {}
  let m := m.update out fun t => { t with items := given.items, fields := given.fields }
  let (m, message) := m.alloc
    { fields := [("role", .str (encode "user".toList)), ("content", .str note)] }
  let (m, messages) := m.alloc { items := [.ref message], tagged := true }
  let rest ← m.elements (given.get "messages")
  let m := m.update messages fun t => { t with items := t.items ++ rest }
  let m := m.update out fun t => t.set "messages" (.ref messages)
  .ok (m, out)

def DEFAULT_MAX_BYTES : ℕ := 512

/-- The kernel's own flag. -/
def defaultFailed (pair : ToolPair) : Bool := !pair.ok

/-- What a filter is configured with. -/
structure CarryOpts where
  maxBytes : Option ℕ := none
  failed : Option (ToolPair → Bool) := none

def CarryOpts.limit (opts : CarryOpts) : ℕ := opts.maxBytes.getD DEFAULT_MAX_BYTES

def CarryOpts.judge (opts : CarryOpts) : ToolPair → Bool := opts.failed.getD defaultFailed

/-- The filter of `policy.carry`, over a session's log. -/
def carry (tostring : Lua → String) (opts : CarryOpts) (log : List Lua × Bool) (m : Memory)
    (request : ℕ) : Except Lua (Memory × ℕ) := do
  let events ← wholeLog log "policy.carry"
  match failureNote tostring events opts.limit opts.judge with
  | none => .ok (m, request)
  | some note => prependNote m request note


/-! ### What a carried request is -/

/-- The newest beat of a log, and its events. -/
def newestBeat (events : List Lua) : Option (Label × List Lua) :=
  (beatIds events).getLast?.map fun id => (id, events.filter (isOf id))

/-- What went wrong in the newest beat, in order. -/
def failures (tostring : Lua → String) (failed : ToolPair → Bool) (events : List Lua) :
    List String :=
  match newestBeat events with
  | none => []
  | some (id, evs) => evs.filterMap (reasonOf tostring failed id (calledOf evs))

/-- The messages a request holds. -/
def Memory.messagesOf (m : Memory) (t : Table) : List Value :=
  match t.get "messages" with
  | .ref place => ((m[place]?).map Table.items).getD []
  | _ => []

/-- A request: a table, whose messages, if it has any, are an array. -/
def IsRequest (m : Memory) (request : ℕ) : Prop :=
  ∃ t, m[request]? = some t ∧
    (t.get "messages" = .nil ∨
      ∃ place u, t.get "messages" = .ref place ∧ m[place]? = some u ∧ ∀ v ∈ u.items, v ≠ .nil)

/-- **A new request**, equal to the one handed in but for one user message placed
before all others, and no table that was there written to. -/
structure Prepends (m : Memory) (request : ℕ) (note : Bytes) (m' : Memory) (out : ℕ) : Prop where
  kept : m <+: m'
  new : m.length ≤ out
  request : ∃ t, m[request]? = some t ∧ ∃ messages message,
    m'[out]? = some
      ({ items := t.items, fields := t.fields : Table }.set "messages" (.ref messages)) ∧
    m'[messages]? = some { items := .ref message :: m.messagesOf t, tagged := true } ∧
    m'[message]? = some
      { fields := [("role", .str (encode "user".toList)), ("content", .str note)] }

/-- The note a text is cut to. -/
structure IsNote (text : Bytes) (limit : ℕ) (note : Bytes) : Prop where
  whole : text.length ≤ limit → note = text
  bounded : note.length ≤ limit
  cut : limit < text.length → ∃ kept, kept <+: text ∧
    note = kept ++ if ELLIPSIS.length < limit then ELLIPSIS else []
  valid : Valid note

/-- What a filter does with a request. -/
structure Carries (reasons : List String) (limit : ℕ) (m : Memory) (request : ℕ)
    (result : Except Lua (Memory × ℕ)) : Prop where
  none : reasons = [] → result = .ok (m, request)
  some : reasons ≠ [] → ∃ note m' out, result = .ok (m', out) ∧
    Prepends m request note m' out ∧ IsNote (noteText reasons) limit note

/-- The cut of a text is between two characters. -/
def CutBetween (text : Bytes) (limit : ℕ) : Prop :=
  text.length ≤ limit ∨ limit ≤ ELLIPSIS.length ∨ StartsChar (text.drop (limit - ELLIPSIS.length))

/-! ### The beats -/

section

variable {events : List Lua}

theorem isOf_iff {id : Label} {ev : Lua} : isOf id ev = true ↔ beatOf ev = some id := by
  rw [isOf, decide_eq_true_eq]

theorem beatIds_concat (events : List Lua) (ev : Lua) :
    beatIds (events ++ [ev]) = beatIds events ++
      match beatOf ev with
      | some id => if id ∈ beatIds events then [] else [id]
      | none => [] := by
  rw [beatIds, firsts_concat, List.map_append]
  refine congrArg _ ?_
  cases beatOf ev with
  | none => rfl
  | some id =>
      show List.map Prod.fst (if id ∈ beatIds events then [] else _) =
        if id ∈ beatIds events then [] else [id]
      split <;> rfl

/-- **The beats of a log**, in the order they first appear, with the events of
each. -/
theorem beatsOf_eq (events : List Lua) :
    beatsOf events = (beatIds events).map fun id => (id, events.filter (isOf id)) := by
  induction events using List.reverseRecOn with
  | nil => rfl
  | append_singleton events ev ih =>
      have hstep : beatsOf (events ++ [ev]) = match beatOf ev with
          | some id => addEvent (beatsOf events) id ev
          | none => beatsOf events := by
        rw [beatsOf, List.foldl_append]
        rfl
      rw [hstep, beatIds_concat, ih]
      cases hev : beatOf ev with
      | none =>
          rw [List.append_nil]
          refine List.map_congr_left fun id _ => ?_
          rw [List.filter_append, List.filter_cons_of_neg, List.filter_nil, List.append_nil]
          rw [isOf_iff, hev]
          exact nofun
      | some id =>
          have hkeys : ((beatIds events).map fun id => (id, events.filter (isOf id))).map
              Prod.fst = beatIds events := by
            rw [List.map_map]
            exact List.map_id _
          have hself : (events ++ [ev]).filter (isOf id) = events.filter (isOf id) ++ [ev] := by
            rw [List.filter_append, List.filter_cons_of_pos (isOf_iff.mpr hev), List.filter_nil]
          have hother : ∀ id', id' ≠ id →
              (events ++ [ev]).filter (isOf id') = events.filter (isOf id') := by
            intro id' hne
            rw [List.filter_append, List.filter_cons_of_neg, List.filter_nil, List.append_nil]
            rw [isOf_iff, hev]
            exact fun h => hne (Option.some.inj h).symm
          show addEvent _ id ev =
            List.map _ (beatIds events ++ if id ∈ beatIds events then [] else [id])
          rw [addEvent, hkeys]
          by_cases hid : id ∈ beatIds events
          · rw [if_pos hid, if_pos hid, List.append_nil, List.map_map]
            refine List.map_congr_left fun id' _ => ?_
            by_cases hsame : id' = id
            · subst hsame
              rw [Function.comp_apply, if_pos rfl, hself]
            · rw [Function.comp_apply, if_neg hsame, hother id' hsame]
          · -- the first event of its beat
            rw [if_neg hid, if_neg hid, List.map_append]
            have hnone : events.filter (isOf id) = [] := by
              rw [List.filter_eq_nil_iff]
              intro e he hof
              exact hid (mem_beatIds.mpr ⟨e, he, isOf_iff.mp hof⟩)
            refine congrArg₂ _ (List.map_congr_left fun id' hid' => ?_) ?_
            · rw [hother id' fun h => hid (h ▸ hid')]
            · rw [List.map_singleton, hself, hnone]
              rfl

theorem getLast?_beatsOf (events : List Lua) : (beatsOf events).getLast? = newestBeat events := by
  rw [beatsOf_eq, List.getLast?_map]
  rfl

/-- There is a note where something failed. -/
theorem failureNote_eq (tostring : Lua → String) (events : List Lua) (limit : ℕ)
    (failed : ToolPair → Bool) : failureNote tostring events limit failed =
      if failures tostring failed events = [] then none
      else some (trim (noteText (failures tostring failed events)) limit) := by
  rw [failureNote, getLast?_beatsOf, failures]
  cases newestBeat events <;> rfl

end

/-! ### The cut -/

section

variable {text : Bytes} {limit : ℕ}

theorem valid_noteText (reasons : List String) : Valid (noteText reasons) := valid_encode _

theorem trim_of_le (h : text.length ≤ limit) : trim text limit = text := if_pos h

theorem trim_short (h : limit < text.length) (hlimit : limit ≤ ELLIPSIS.length) :
    trim text limit = text.take limit := by
  rw [trim, if_neg (by omega), if_pos hlimit]

theorem trim_long (h : limit < text.length) (hlimit : ELLIPSIS.length < limit) :
    trim text limit = text.take (limit - ELLIPSIS.length) ++ ELLIPSIS := by
  rw [trim, if_neg (by omega), if_neg (by omega)]

theorem valid_ellipsis : Valid ELLIPSIS := valid_encode _

/-- The first words of a note are bytes of one character each. -/
theorem startsChar_noteText (reasons : List String) (h : limit ≤ ELLIPSIS.length) :
    StartsChar ((noteText reasons).drop limit) := by
  have hle : limit ≤ 3 := h
  have hwords : noteText reasons =
      encode NOTE_PREFIX.toList ++ encode (String.intercalate "; " reasons).toList := by
    rw [noteText, String.toList_append, encode_append]
  have hthe : encode NOTE_PREFIX.toList =
      116 :: 104 :: 101 :: 32 :: (encode NOTE_PREFIX.toList).drop 4 := rfl
  rw [hwords, hthe]
  obtain rfl | rfl | rfl | rfl : limit = 0 ∨ limit = 1 ∨ limit = 2 ∨ limit = 3 := by omega
  all_goals exact startsChar_cons.mpr (by decide)

/-- **A note is a text** exactly if its cut is between two characters. -/
theorem isNote_iff (reasons : List String) (limit : ℕ) :
    IsNote (noteText reasons) limit (trim (noteText reasons) limit) ↔
      CutBetween (noteText reasons) limit := by
  have htext := valid_noteText reasons
  generalize htextEq : noteText reasons = text at htext ⊢
  rcases Nat.lt_or_ge limit text.length with hlong | hshort
  · rcases Nat.lt_or_ge ELLIPSIS.length limit with hroom | hnone
    · -- room for an ellipsis
      have hcut : CutBetween text limit ↔
          StartsChar (text.drop (limit - ELLIPSIS.length)) := by
        rw [CutBetween, or_iff_right (by omega), or_iff_right (by omega)]
      rw [hcut, trim_long hlong hroom, ← valid_take_iff htext]
      constructor
      · intro h
        have hvalid := h.valid
        have hat := valid_take_iff hvalid (text.take (limit - ELLIPSIS.length)).length
        rw [List.take_left, List.drop_left] at hat
        exact hat.mpr valid_ellipsis.startsChar
      · intro h
        refine ⟨fun hle => absurd hle (by omega), ?_, fun _ => ?_, h.append valid_ellipsis⟩
        · rw [List.length_append, List.length_take]
          omega
        · exact ⟨_, List.take_prefix _ _, by rw [if_pos hroom]⟩
    · have hcut : CutBetween text limit := .inr (.inl hnone)
      refine iff_of_true ?_ hcut
      rw [trim_short hlong hnone]
      refine ⟨fun hle => absurd hle (by omega), List.length_take_le _ _, fun _ => ?_, ?_⟩
      · exact ⟨_, List.take_prefix _ _, by rw [if_neg (by omega), List.append_nil]⟩
      · rw [valid_take_iff htext, ← htextEq]
        exact startsChar_noteText reasons hnone
  · refine iff_of_true ?_ (.inl hshort)
    rw [trim_of_le hshort]
    exact ⟨fun _ => rfl, hshort, fun hlt => absurd hlt (by omega), htext⟩

end

/-! ### The request -/

section

variable {m : Memory} {request : ℕ} {note : Bytes}

theorem Memory.update_append (m l : Memory) (k : ℕ) (f : Table → Table) :
    Memory.update (m ++ l) (m.length + k) f = m ++ Memory.update l k f := by
  induction m with
  | nil => rw [List.nil_append, List.length_nil, Nat.zero_add, List.nil_append]
  | cons t m ih =>
      rw [List.length_cons, show m.length + 1 + k = m.length + k + 1 by omega]
      exact congrArg (t :: ·) ih

/-- A loop takes the messages of a request. -/
theorem elements_messages {t : Table} (l : Memory)
    (h : t.get "messages" = .nil ∨
      ∃ place u, t.get "messages" = .ref place ∧ m[place]? = some u ∧ ∀ v ∈ u.items, v ≠ .nil) :
    Memory.elements (m ++ l) (t.get "messages") = .ok (m.messagesOf t) := by
  rw [Memory.messagesOf]
  rcases h with hnil | ⟨place, u, href, hu, hitems⟩
  · rw [hnil]
    rfl
  · have hplace : (m ++ l)[place]? = some u := by
      rw [List.getElem?_append_left (List.getElem?_eq_some_iff.mp hu).1, hu]
    rw [href]
    simp only [Memory.elements, hplace, hu, Option.map_some, Option.getD_some]
    rw [List.takeWhile_eq_self_iff.mpr]
    intro v hv
    cases v with
    | nil => exact absurd rfl (hitems .nil hv)
    | _ => rfl

/-- **The note is put in front** of a request's messages, and nothing that was there
is written to. -/
theorem prependNote_ok (h : IsRequest m request) (note : Bytes) :
    ∃ m' out, prependNote m request note = .ok (m', out) ∧ Prepends m request note m' out := by
  obtain ⟨t, ht, hmessages⟩ := h
  let message : Table :=
    { fields := [("role", .str (encode "user".toList)), ("content", .str note)] }
  let out : Table := { items := t.items, fields := t.fields }
  let array : Table := { items := .ref (m.length + 1) :: m.messagesOf t, tagged := true }
  refine ⟨m ++ [out.set "messages" (.ref (m.length + 2)), message, array], m.length, ?_, ?_⟩
  · have hout : ∀ (t : Table) f, Memory.update (m ++ [t]) m.length f = m ++ [f t] :=
      fun t => Memory.update_append m [t] 0
    have helements := elements_messages
      [out, message, { items := [.ref (m.length + 1)], tagged := true }] hmessages
    have harray : ∀ l f, Memory.update (m ++ l) (m.length + 2) f = m ++ Memory.update l 2 f :=
      fun l => Memory.update_append m l 2
    have hset : ∀ l f, Memory.update (m ++ l) m.length f = m ++ Memory.update l 0 f :=
      fun l => Memory.update_append m l 0
    simp only [prependNote, Memory.alloc, ht, Option.getD_some, hout, List.append_assoc,
      List.length_append, List.length_singleton, List.cons_append, List.nil_append]
    refine (congrArg (· >>= _) helements).trans (congrArg Except.ok (Prod.ext ?_ rfl))
    show Memory.update (Memory.update _ (m.length + 2) _) m.length _ = _
    rw [harray, hset]
    rfl
  · constructor
    case kept => exact List.prefix_append _ _
    case new => exact Nat.le_refl _
    case request =>
      refine ⟨t, ht, m.length + 2, m.length + 1, ?_, ?_, ?_⟩
      · rw [List.getElem?_append_right (Nat.le_refl _), Nat.sub_self]
        rfl
      · rw [List.getElem?_append_right (by omega), Nat.add_sub_cancel_left]
        rfl
      · rw [List.getElem?_append_right (by omega), Nat.add_sub_cancel_left]
        rfl

theorem Prepends.note_unique {note' : Bytes} {m' : Memory} {out : ℕ}
    (h : Prepends m request note m' out) (h' : Prepends m request note' m' out) : note = note' := by
  obtain ⟨t, ht, messages, message, hout, hmessages, hmessage⟩ := h.request
  obtain ⟨t', ht', messages', message', hout', hmessages', hmessage'⟩ := h'.request
  obtain rfl := Option.some.inj (ht.symm.trans ht')
  have hset := Option.some.inj (hout.symm.trans hout')
  obtain rfl : messages = messages' := by
    have hfields := congrArg Table.fields hset
    simpa [Table.set] using hfields
  have harray := congrArg Table.items (Option.some.inj (hmessages.symm.trans hmessages'))
  obtain rfl : message = message' := by simpa using harray
  have hfields := congrArg Table.fields (Option.some.inj (hmessage.symm.trans hmessage'))
  simpa using hfields

end

/-! ### When a request is carried well -/

/-- **A carried request** is what it should be exactly if the note of its failures
is not cut inside a character. -/
theorem carries_iff (tostring : Lua → String) (opts : CarryOpts) (events : List Lua) {m : Memory}
    {request : ℕ} (h : IsRequest m request) :
    Carries (failures tostring opts.judge events) opts.limit m request
        (carry tostring opts (events, false) m request) ↔
      (failures tostring opts.judge events = [] ∨
        CutBetween (noteText (failures tostring opts.judge events)) opts.limit) := by
  have hrun : carry tostring opts (events, false) m request =
      match failureNote tostring events opts.limit opts.judge with
      | none => .ok (m, request)
      | some note => prependNote m request note := rfl
  rw [hrun, failureNote_eq]
  by_cases hnone : failures tostring opts.judge events = []
  · rw [if_pos hnone]
    exact iff_of_true ⟨fun _ => rfl, fun hsome => absurd hnone hsome⟩ (.inl hnone)
  · rw [if_neg hnone, or_iff_right hnone, ← isNote_iff]
    obtain ⟨m', out, hok, hprepends⟩ :=
      prependNote_ok h (trim (noteText (failures tostring opts.judge events)) opts.limit)
    constructor
    · intro hcarries
      obtain ⟨note, m'', out', hresult, hprepends', hnote⟩ := hcarries.some hnone
      obtain ⟨rfl, rfl⟩ := Prod.mk.inj (Except.ok.inj (hok.symm.trans hresult))
      rw [hprepends.note_unique hprepends']
      exact hnote
    · intro hnote
      exact ⟨fun hall => absurd hall hnone, fun _ => ⟨_, m', out, hok, hprepends, hnote⟩⟩

/-- A beat of one call, which failed with this. -/
def failedBeat (result : String) : List Lua :=
  [Lua.record [("kind", .str "tool_result"), ("meta", Lua.record [("beat", .str "b1")]),
    ("data", Lua.record [("call_id", .str "1"), ("ok", .bool false), ("result", .str result)])]]

theorem failures_failedBeat (tostring : Lua → String) (maxBytes : Option ℕ) (result : String) :
    failures tostring ({ maxBytes } : CarryOpts).judge (failedBeat result) =
      ["a tool call failed: " ++ result] := by
  rfl

theorem isRequest_empty : IsRequest [{}] 0 := ⟨{}, rfl, .inl rfl⟩

/-- A request with a conf and one message. -/
def greeting : Memory :=
  [{ fields := [("max_tokens", .num (.int 1024)), ("messages", .ref 1)] },
    { items := [.ref 2], tagged := true },
    { fields := [("role", .str (encode "user".toList)), ("content", .str (encode "hi".toList))] }]

theorem isRequest_greeting : IsRequest greeting 0 := by
  refine ⟨_, rfl, .inr ⟨1, _, rfl, rfl, fun v hv => ?_⟩⟩
  obtain rfl := List.mem_singleton.mp hv
  rintro ⟨⟩

theorem short_note_is_carried :
    Carries ["a tool call failed: éééé"] 512 greeting 0
      (carry (fun _ => "") {} (failedBeat "éééé", false) greeting 0) := by
  have h := (carries_iff (fun _ => "") {} (failedBeat "éééé") isRequest_greeting).mpr
  rw [failures_failedBeat (fun _ => "") none] at h
  exact h (.inr (.inl (by decide +kernel)))

/-- **A note cut inside a character** is no text. -/
theorem note_is_cut_inside_character :
    ¬ Carries ["a tool call failed: éééé"] 60 [{}] 0
      (carry (fun _ => "") { maxBytes := some 60 } (failedBeat "éééé", false) [{}] 0) := by
  intro h
  obtain ⟨note, m', out, hresult, hprepends, hnote⟩ := h.some (List.cons_ne_nil _ _)
  obtain ⟨m'', out', hok, hprepends'⟩ :=
    prependNote_ok isRequest_empty (trim (noteText ["a tool call failed: éééé"]) 60)
  have hrun : carry (fun _ => "") { maxBytes := some 60 } (failedBeat "éééé", false) [{}] 0 =
      prependNote [{}] 0 (trim (noteText ["a tool call failed: éééé"]) 60) := by
    rfl
  obtain ⟨rfl, rfl⟩ := Prod.mk.inj (Except.ok.inj (hok.symm.trans (hrun.symm.trans hresult)))
  rw [hprepends.note_unique hprepends'] at hnote
  have hvalid := hnote.valid
  revert hvalid
  decide +kernel

end AgentBlock.Policy
