/-
AgentBlock/Supervisor/Merge.lean

Several sessions read into one request.

The events of the listed streams come from one read, with `data` as the text it
is stored as; what decodes it, `std.json.decode`, and what that text is, are
parameters.  Each session is folded on its own, and the folding session last.

Main results:

* `turns_inj` — two histories of the same kinds that fold to the same messages
  were heard alike;
* `merge_reads_iff` — the merged request is the sessions' own, one after the
  other, exactly where every event decodes to what `events()` makes of it;
* `merge_loses_null` — a null in the input of a tool.
-/
import AgentBlock.Bridge.LuaJson
import AgentBlock.Knl.Remaining
import AgentBlock.Shell.FoldKept

namespace AgentBlock.Supervisor

open Lua (record array hostArray)
open Knl (Current Database Row)
open Bridge (jsonToLua)
open Shell

/-! ### What the log answers -/

/-- A stored event, as the store answers it. -/
def eventValue (e : Current) : Json :=
  .obj [("_schema_version", .num (.int e.schemaVersion)), ("data", .obj e.data),
    ("epoch_ms", .num (.int e.epochMs)), ("kind", .str e.kind), ("meta", .obj e.labels),
    ("seq", .num (.int e.seq))]

/-- The whole log of a session, as its `events()` answers it. -/
def sessionEvents (db : Database) (stream : String) : Except Lua Lua :=
  jsonToLua 0 (.arr ((db.stream stream).map eventValue))

/-- By stream, then by seq. -/
def rowLE (a b : Row) : Prop :=
  a.stream < b.stream ∨ a.stream = b.stream ∧ a.event.seq ≤ b.event.seq

instance : DecidableRel rowLE := fun a b => by unfold rowLE; infer_instance

/-- The rows of the named streams, in stream and seq order. -/
def mergeRows (db : Database) (ids : List String) : List Row :=
  (db.filter fun row => row.stream ∈ ids).insertionSort rowLE

/-! ### The merge -/

/-- A session, as its id or as a handle, which is asked for its own. -/
inductive Listed where
  | id (stream : String)
  | handle (stream : String)

def streamId : Listed → String
  | .id stream => stream
  | .handle stream => stream

def missingHistory : Lua :=
  .str "supervisor.merge: the read hit the row limit — the request would be missing history"

section Merge

variable (encode : Lua → Except Lua String) (decode : Lua → Except Lua Lua) (column : Obj → String)

/-- A row as the read answers it, with the text of its `data`. -/
def rowValue (row : Row) : Lua :=
  record [("stream", .str row.stream), ("seq", .num (.int row.event.seq)),
    ("kind", .str row.event.kind), ("data", .str (column row.event.data))]

/-- The read: its rows up to the limit, and whether there are more.  Nothing is
written. -/
def query (ids : List String) (limit : Nat) (db : Database) : (List Lua × Bool) × Database :=
  ((((mergeRows db ids).take limit).map (rowValue column), limit < (mergeRows db ids).length), db)

/-- A row's `data`, as the fold wants it. -/
def decoded (value : Lua) : Except Lua Lua :=
  if value.isNil then .ok .nil
  else if value.isTable then .ok value
  else decode value

/-- The rows as events, each beside its stream. -/
def byStream : List Lua → Except Lua (List (Lua × Lua))
  | [] => .ok []
  | row :: rest => do
      let data ← decoded decode (row.get "data")
      let more ← byStream rest
      .ok ((row.get "stream", record [("kind", row.get "kind"), ("data", data)]) :: more)

/-- The events of one stream. -/
def bucket (found : List (Lua × Lua)) (id : String) : List Lua :=
  (found.filter fun f => f.1.eq (.str id)).map Prod.snd

/-- The messages of each listed session, one session after the other. -/
def mergedMessages (found : List (Lua × Lua)) (device : Device) :
    List String → Except Lua (List Lua)
  | [] => .ok []
  | id :: ids => do
      let request ← fold encode (array (bucket found id)) device
      let messages ← (request.get "messages").ipairs
      let more ← mergedMessages found device ids
      .ok (messages ++ more)

/-- **The fold of several sessions.** -/
def merge (sessions : List Listed) (limit : Nat) (db : Database) (events : Lua) (device : Device) :
    Except Lua Lua × Database :=
  let ((rows, truncated), db) := query column (sessions.map streamId) limit db
  (do
    if truncated then
      throw missingHistory
    let found ← byStream decode rows
    let messages ← mergedMessages encode found device (sessions.map streamId)
    let request ← fold encode events device
    let own ← (request.get "messages").ipairs
    pure (request.set "messages" (array (messages ++ own))), db)

end Merge

/-! ### Two histories heard alike -/

/-- Two things heard are of one sort, and what makes the message makes the rest. -/
inductive SameSort : Heard → Heard → Prop
  | said {message message' : Lua} {ids ids' : List Lua} :
      (message = message' → ids = ids') → SameSort (.said message ids) (.said message' ids')
  | result {id id' block block' : Lua} :
      (block = block' → id = id') → SameSort (.result id block) (.result id' block')
  | skipped : SameSort .skipped .skipped

section

variable {t t' : Turn} {hs hs' : List Heard}

/-- The messages of a turn that a message started begin with it. -/
theorem messages_said (message : Lua) (ids : List Lua) (hs : List Heard) :
    ∃ rest, (turns { message := some message, ids } hs).flatMap Turn.messages = message :: rest := by
  obtain ⟨rs, more, h⟩ := turns_first { message := some message, ids } hs
  rw [h]
  exact ⟨_, rfl⟩

/-- The messages of a turn that has a result have it in its place. -/
theorem messages_result (t : Turn) (id block : Lua) (hs : List Heard) :
    ∃ blocks rest,
      (turns { t with results := t.results ++ [(id, block)] } hs).flatMap Turn.messages =
        t.message.toList ++ userMessage (array (t.results.map Prod.snd ++ block :: blocks)) ::
          rest := by
  obtain ⟨rs, more, h⟩ := turns_first { t with results := t.results ++ [(id, block)] } hs
  rw [h]
  let u : Turn := { t with results := t.results ++ [(id, block)] ++ rs }
  have hblocks : u.blocks = t.results.map Prod.snd ++ block ::
      (rs.map Prod.snd ++ u.unanswered.map interruptedBlock) := by
    simp [Turn.blocks, u]
  have hmem : block ∈ u.blocks := by
    rw [hblocks]
    exact List.mem_append_right _ List.mem_cons_self
  refine ⟨rs.map Prod.snd ++ u.unanswered.map interruptedBlock, more.flatMap Turn.messages, ?_⟩
  show u.message.toList ++ u.answers ++ more.flatMap Turn.messages = _
  rw [Turn.answers_of_mem hmem, hblocks, List.append_assoc]
  rfl

/-- **Same messages, same history.** -/
theorem turns_inj (hsame : List.Forall₂ SameSort hs hs') {t : Turn} {r r' : List Lua}
    (h : (turns t hs).flatMap Turn.messages ++ r = (turns t hs').flatMap Turn.messages ++ r') :
    hs = hs' ∧ r = r' := by
  induction hsame generalizing t with
  | nil => exact ⟨rfl, List.append_cancel_left h⟩
  | @cons x y xs ys hxy _ ih =>
      cases hxy with
      | @said message message' ids ids' hids =>
          simp only [turns, List.flatMap_cons, List.append_assoc] at h
          have htail := List.append_cancel_left h
          obtain ⟨rest, hrest⟩ := messages_said message ids xs
          obtain ⟨rest', hrest'⟩ := messages_said message' ids' ys
          have hfirst := htail
          rw [hrest, hrest'] at hfirst
          -- the first message is the one that was said, on both sides
          obtain rfl : message = message' := (List.cons_eq_cons.mp hfirst).1
          obtain rfl := hids rfl
          obtain ⟨rfl, hr⟩ := ih htail
          exact ⟨rfl, hr⟩
      | @result id id' block block' hid =>
          simp only [turns] at h
          obtain ⟨blocks, rest, hrest⟩ := messages_result t id block xs
          obtain ⟨blocks', rest', hrest'⟩ := messages_result t id' block' ys
          have hfirst := h
          rw [hrest, hrest', List.append_assoc, List.append_assoc] at hfirst
          have hmessage := (List.cons_eq_cons.mp (List.append_cancel_left hfirst)).1
          -- a result is among the blocks of one message, behind those that came before it
          have hcontent : array (t.results.map Prod.snd ++ block :: blocks) =
              array (t.results.map Prod.snd ++ block' :: blocks') := by
            have := congrArg (fun m => m.get "content") hmessage
            rwa [content_userMessage, content_userMessage] at this
          have hblocks : t.results.map Prod.snd ++ block :: blocks =
              t.results.map Prod.snd ++ block' :: blocks' := by
            rw [array, array] at hcontent
            exact (Lua.table.inj hcontent).1
          obtain rfl : block = block' :=
            (List.cons_eq_cons.mp (List.append_cancel_left hblocks)).1
          obtain rfl := hid rfl
          obtain ⟨rfl, hr⟩ := ih h
          exact ⟨rfl, hr⟩
      | skipped =>
          obtain ⟨rfl, hr⟩ := ih h
          exact ⟨rfl, hr⟩

end

/-! ### What was decoded -/

/-- The value of a conversion that answered. -/
def orNil : Except Lua Lua → Lua
  | .ok v => v
  | .error _ => .nil

/-- An event as `events()` answers it. -/
def eventOf (e : Current) : Lua := orNil (jsonToLua 1 (eventValue e))

/-- An event as the merge hands it to the fold. -/
def mergedOf (decode : Lua → Except Lua Lua) (column : Obj → String) (e : Current) : Lua :=
  record [("kind", .str e.kind), ("data", orNil (decode (.str (column e.data))))]

/-- **The event reads the same.**  Both conversions of it answer, the fold can
read it, and takes from what was decoded what it takes from the event: the
content of a message, the id and the block of a result. -/
structure ReadsAlike (encode : Lua → Except Lua String) (decode : Lua → Except Lua Lua)
    (column : Obj → String) (e : Current) : Prop where
  converts : ∃ ev, jsonToLua 1 (eventValue e) = .ok ev
  decodes : ∃ v, decode (.str (column e.data)) = .ok v
  readable : Readable encode (eventOf e)
  heard : heard encode (mergedOf decode column e) = heard encode (eventOf e)

section

variable {encode : Lua → Except Lua String} {decode : Lua → Except Lua Lua} {column : Obj → String}
variable {db : Database} {e : Current}

theorem orNil_ok {r : Except Lua Lua} {v : Lua} (h : r = .ok v) : r = .ok (orNil r) := by
  rw [h]
  rfl

/-- The log of a session converts an event at a time. -/
theorem sessionEvents_ok {s : String} {v : Lua} :
    sessionEvents db s = .ok v ↔
      (∀ e ∈ db.stream s, ∃ ev, jsonToLua 1 (eventValue e) = .ok ev) ∧
        v = hostArray ((db.stream s).map eventOf) := by
  have hitems (items : List Lua) :
      List.Forall₂ (fun x item => jsonToLua 1 x = .ok item) ((db.stream s).map eventValue) items ↔
        (∀ e ∈ db.stream s, ∃ ev, jsonToLua 1 (eventValue e) = .ok ev) ∧
          items = (db.stream s).map eventOf := by
    rw [List.forall₂_map_left_iff]
    generalize db.stream s = es
    constructor
    · intro h
      induction h with
      | nil => exact ⟨(fun _ he => nomatch he), rfl⟩
      | @cons e ev es evs he _ ih =>
          obtain ⟨hall, rfl⟩ := ih
          refine ⟨List.forall_mem_cons.mpr ⟨⟨ev, he⟩, hall⟩, ?_⟩
          rw [List.map_cons, eventOf, he]
          rfl
    · rintro ⟨hall, rfl⟩
      rw [List.forall₂_map_right_iff, List.forall₂_same]
      intro e he
      obtain ⟨ev, hev⟩ := hall e he
      exact orNil_ok hev
  rw [sessionEvents, Bridge.jsonToLua_arr (Nat.zero_le _)]
  constructor
  · rintro ⟨items, heach, rfl⟩
    obtain ⟨hall, rfl⟩ := (hitems items).mp heach
    exact ⟨hall, rfl⟩
  · rintro ⟨hall, rfl⟩
    exact ⟨_, (hitems _).mpr ⟨hall, rfl⟩, rfl⟩

/-- An event that converts has its kind and its data. -/
theorem eventOf_get (h : ∃ ev, jsonToLua 1 (eventValue e) = .ok ev) :
    (eventOf e).isIndexable = true ∧ (eventOf e).get "kind" = .str e.kind ∧
      jsonToLua 2 (.obj e.data) = .ok ((eventOf e).get "data") := by
  obtain ⟨ev, hev⟩ := h
  have hof : eventOf e = ev := by rw [eventOf, hev]; rfl
  obtain ⟨hindexable, hget⟩ := Bridge.jsonToLua_get hev
  rw [hof]
  exact ⟨hindexable, Bridge.jsonToLua_str (hget "kind" _ rfl), hget "data" _ rfl⟩

theorem mergedOf_kind : (mergedOf decode column e).get "kind" = .str e.kind := by
  rw [mergedOf, Lua.get_record (by simp)]
  rfl

theorem mergedOf_data :
    (mergedOf decode column e).get "data" = orNil (decode (.str (column e.data))) := by
  rw [mergedOf, Lua.get_record (by simp)]
  rfl

end

section

variable {encode : Lua → Except Lua String} {decode : Lua → Except Lua Lua} {column : Obj → String}
variable {db : Database} {ids : List String} {id : String}

/-- The seqs of a stream ascend. -/
theorem stream_sorted (hn : Knl.Numbered db) (s : String) :
    (db.filter fun row => row.stream = s).Pairwise rowLE := by
  have hseqs : ((db.stream s).map Current.seq).Pairwise (· < ·) := by
    rw [hn s]
    exact List.pairwise_lt_range'
  rw [Database.stream, List.map_map, List.pairwise_map] at hseqs
  refine hseqs.imp_of_mem fun {a b} ha hb hlt => ?_
  have hstream {r : Row} (hr : r ∈ db.filter fun row => row.stream = s) : r.stream = s := by
    simpa using (List.mem_filter.mp hr).2
  exact Or.inr ⟨(hstream ha).trans (hstream hb).symm, Nat.le_of_lt hlt⟩

/-- **The rows of one stream are its log, in order.** -/
theorem mergeRows_stream (hn : Knl.Numbered db) (hid : id ∈ ids) :
    (mergeRows db ids).filter (fun row => row.stream = id) =
      db.filter fun row => row.stream = id := by
  have hrows : (db.filter fun row => row.stream = id).Sublist
      (db.filter fun row => row.stream ∈ ids) := by
    refine List.monotone_filter_right db fun row hrow => ?_
    obtain rfl : row.stream = id := by simpa using hrow
    simpa using hid
  have hsorted : (db.filter fun row => row.stream = id).Sublist (mergeRows db ids) :=
    List.sublist_insertionSort (stream_sorted hn id) hrows
  have hown := hsorted.filter fun row => row.stream = id
  rw [List.filter_filter] at hown
  simp only [Bool.and_self] at hown
  refine (hown.eq_of_length ?_).symm
  have hperm := (List.perm_insertionSort rowLE (db.filter fun row => row.stream ∈ ids)).filter
    fun row => row.stream = id
  rw [mergeRows, hperm.length_eq, List.filter_filter]
  congr 1
  refine List.filter_congr fun row _ => ?_
  by_cases hrow : row.stream = id
  · simp [hrow, hid]
  · simp [hrow]

theorem rowValue_get (row : Row) : (rowValue column row).get "stream" = .str row.stream ∧
    (rowValue column row).get "kind" = .str row.event.kind ∧
    (rowValue column row).get "data" = .str (column row.event.data) := by
  refine ⟨?_, ?_, ?_⟩ <;>
    · rw [rowValue, Lua.get_record (by simp)]
      rfl

/-- The rows decode one at a time. -/
theorem byStream_ok {rows : List Row} {found : List (Lua × Lua)} :
    byStream decode (rows.map (rowValue column)) = .ok found ↔
      (∀ row ∈ rows, ∃ v, decode (.str (column row.event.data)) = .ok v) ∧
        found = rows.map fun row => (.str row.stream, mergedOf decode column row.event) := by
  induction rows generalizing found with
  | nil =>
      constructor
      · intro h
        cases h
        exact ⟨(fun _ hr => nomatch hr), rfl⟩
      · rintro ⟨-, rfl⟩
        rfl
  | cons row rest ih =>
      obtain ⟨hstream, hkind, hdata⟩ := @rowValue_get column row
      have hdecoded : decoded decode ((rowValue column row).get "data") =
          decode (.str (column row.event.data)) := by
        rw [hdata]
        rfl
      simp only [List.map_cons, byStream, hdecoded, hstream, hkind, bind, Except.bind]
      cases hv : decode (.str (column row.event.data)) with
      | error e =>
          constructor
          · intro h
            cases h
          · rintro ⟨hall, -⟩
            obtain ⟨v, hv'⟩ := hall row List.mem_cons_self
            rw [hv] at hv'
            cases hv'
      | ok v =>
          have hmerged : mergedOf decode column row.event =
              record [("kind", .str row.event.kind), ("data", v)] := by
            rw [mergedOf, hv]
            rfl
          cases hrest : byStream decode (rest.map (rowValue column)) with
          | error e =>
              constructor
              · intro h
                cases h
              · rintro ⟨hall, -⟩
                rw [ih.mpr ⟨(List.forall_mem_cons.mp hall).2, rfl⟩] at hrest
                cases hrest
          | ok more =>
              obtain ⟨hall, rfl⟩ := ih.mp hrest
              rw [hmerged]
              constructor
              · intro h
                cases h
                exact ⟨List.forall_mem_cons.mpr ⟨⟨v, hv⟩, hall⟩, rfl⟩
              · rintro ⟨-, rfl⟩
                rfl

/-- The events of one listed stream, as the fold has them. -/
theorem bucket_eq (hn : Knl.Numbered db) (hid : id ∈ ids) :
    bucket ((mergeRows db ids).map fun row =>
        (.str row.stream, mergedOf decode column row.event)) id =
      (db.stream id).map (mergedOf decode column) := by
  have heq (s : String) : (Lua.str s).eq (.str id) = decide (s = id) := rfl
  rw [bucket, List.filter_map, Database.stream, ← mergeRows_stream hn hid, List.map_map,
    List.map_map]
  have hfilter : ((fun f : Lua × Lua => f.1.eq (.str id)) ∘ fun row : Row =>
      ((.str row.stream : Lua), mergedOf decode column row.event)) =
      fun row : Row => decide (row.stream = id) := by
    funext row
    exact heq row.stream
  rw [hfilter]
  rfl

/-- The messages of the listed sessions, where each can be read. -/
theorem mergedMessages_ok {found : List (Lua × Lua)} {device : Device} {messages : List Lua} :
    mergedMessages encode found device ids = .ok messages ↔
      (∀ id ∈ ids, ∀ ev ∈ bucket found id, Readable encode ev) ∧
        messages = ids.flatMap fun id => (turnsOf encode (bucket found id)).flatMap Turn.messages := by
  induction ids generalizing messages with
  | nil =>
      constructor
      · intro h
        cases h
        exact ⟨(fun _ hr => nomatch hr), rfl⟩
      · rintro ⟨-, rfl⟩
        rfl
  | cons id rest ih =>
      simp only [mergedMessages, bind, Except.bind]
      cases hfold : fold encode (array (bucket found id)) device with
      | error e =>
          constructor
          · intro h
            cases h
          · rintro ⟨hall, -⟩
            rw [fold_array_ok.mpr ⟨hall id List.mem_cons_self, rfl⟩] at hfold
            cases hfold
      | ok request =>
          obtain ⟨hread, rfl⟩ := fold_array_ok.mp hfold
          have hipairs (items : List Lua) : (array items).ipairs = .ok items := rfl
          simp only [requestOf_messages, hipairs]
          cases hrest : mergedMessages encode found device rest with
          | error e =>
              constructor
              · intro h
                cases h
              · rintro ⟨hall, -⟩
                rw [ih.mpr ⟨(List.forall_mem_cons.mp hall).2, rfl⟩] at hrest
                cases hrest
          | ok more =>
              obtain ⟨hall, rfl⟩ := ih.mp hrest
              constructor
              · intro h
                cases h
                exact ⟨List.forall_mem_cons.mpr ⟨hread, hall⟩, rfl⟩
              · rintro ⟨-, rfl⟩
                rfl

end

/-! ### One event, read twice -/

section

variable {encode : Lua → Except Lua String} {ev ev' : Lua}

/-- An event that is heard as one that can be read can be read. -/
theorem readable_of_heard (hindex : ev'.isIndexable = true) (hkind : ev'.get "kind" = ev.get "kind")
    (hread : Readable encode ev) (hheard : heard encode ev' = heard encode ev) :
    Readable encode ev' := by
  have hkinds (kind : String) : isKind kind ev' = isKind kind ev := by
    rw [isKind, hkind, isKind]
  have hresult (h : isKind "tool_result" ev' = true) :
      (dataOf ev').get "call_id" = (dataOf ev).get "call_id" ∧
        resultBlock encode (dataOf ev') = resultBlock encode (dataOf ev) := by
    have h' : isKind "tool_result" ev = true := hkinds _ ▸ h
    rw [heard_result (isKind_iff.mp h), heard_result (isKind_iff.mp h')] at hheard
    exact Heard.result.inj hheard
  constructor
  · exact hindex
  · intro h
    have h' : isKind "llm_response" ev = true := hkinds _ ▸ h
    rw [heard_response (isKind_iff.mp h), heard_response (isKind_iff.mp h')] at hheard
    have hcontent := congrArg (fun m => m.get "content") (Heard.said.inj hheard).1
    simp only [content_assistantMessage] at hcontent
    rw [hcontent]
    exact hread.blocks h'
  · intro h
    rw [(hresult h).1]
    exact hread.key (hkinds _ ▸ h)
  · intro h
    obtain ⟨block, hblock⟩ := hread.renders (hkinds _ ▸ h)
    obtain ⟨-, hsame⟩ := hresult h
    cases hblock' : toolResultBlock encode (dataOf ev') with
    | ok block' => exact ⟨block', rfl⟩
    | error e =>
        -- a block that renders is no `nil`
        have hnil : Lua.nil = block := by
          rw [resultBlock, resultBlock, hblock, hblock'] at hsame
          exact hsame
        have htype := (isResult_toolResultBlock hblock).type
        rw [← hnil] at htype
        cases htype

theorem sameSort_heard (hkind : ev'.get "kind" = ev.get "kind") (hread' : Readable encode ev')
    (hread : Readable encode ev) : SameSort (heard encode ev') (heard encode ev) := by
  have hkinds (kind : String) : isKind kind ev' = isKind kind ev := by
    rw [isKind, hkind, isKind]
  by_cases huser : isKind "msg_user" ev = true
  · rw [heard_user huser, heard_user (by rw [hkinds]; exact huser)]
    exact .said fun _ => rfl
  by_cases hresponse : isKind "llm_response" ev = true
  · rw [heard_response (isKind_iff.mp hresponse),
      heard_response (isKind_iff.mp (by rw [hkinds]; exact hresponse))]
    refine .said fun h => ?_
    have hcontent := congrArg (fun m => m.get "content") h
    simp only [content_assistantMessage] at hcontent
    rw [hcontent]
  by_cases hresult : isKind "tool_result" ev = true
  · have hresult' : isKind "tool_result" ev' = true := by rw [hkinds]; exact hresult
    obtain ⟨block, hblock⟩ := hread.renders hresult
    obtain ⟨block', hblock'⟩ := hread'.renders hresult'
    rw [heard_result (isKind_iff.mp hresult), heard_result (isKind_iff.mp hresult')]
    refine .result fun h => ?_
    rw [resultBlock, resultBlock, hblock, hblock'] at h
    rw [← (isResult_toolResultBlock hblock).id, ← (isResult_toolResultBlock hblock').id]
    exact congrArg (fun b => b.get "tool_use_id") h
  · simp only [heard, hkinds, huser, hresponse, hresult]
    exact .skipped

end

/-! ### The merge is the sessions' own folds -/

/-- The fold of a session's own events. -/
def foldSession (encode : Lua → Except Lua String) (db : Database) (stream : String)
    (device : Device) : Except Lua Lua := do
  let events ← sessionEvents db stream
  fold encode events device

/-- A message that calls tools is followed by one with a result for each call. -/
def CallsAnswered (messages : List Lua) : Prop :=
  ∀ before message after, messages = before ++ message :: after →
    message.get "role" = .str "assistant" → ∀ id ∈ callIds (message.get "content"),
    ∃ blocks rest, after = userMessage (array blocks) :: rest ∧ ∃ block ∈ blocks, Answers id block

/-- The result is the sessions' own messages, in the order given, and the
folding session's last; the calls of each are answered in its own; and the
database is as it was. -/
structure ReadsSessions (encode : Lua → Except Lua String) (db : Database)
    (sessions : List Listed) (events : List Lua) (device : Device)
    (result : Except Lua Lua × Database) : Prop where
  reads : ∃ request own folds parent, result.1 = .ok request ∧
    fold encode (array events) device = .ok own ∧ own.get "messages" = array parent ∧
    List.Forall₂ (fun s messages => ∃ r, foldSession encode db (streamId s) device = .ok r ∧
      r.get "messages" = array messages) sessions folds ∧
    request.get "messages" = array (folds.flatten ++ parent) ∧
    request.get "system" = own.get "system" ∧ request.get "tools" = own.get "tools" ∧
    ∀ messages ∈ folds ++ [parent], CallsAnswered messages
  untouched : result.2 = db

section

variable {encode : Lua → Except Lua String} {decode : Lua → Except Lua Lua} {column : Obj → String}
variable {db : Database} {sessions : List Listed} {limit : Nat} {events : List Lua}
variable {device : Device}

/-- The messages a session has of its own, and those the merge has of it. -/
def ownMessages (encode : Lua → Except Lua String) (db : Database) (s : String) : List Lua :=
  (turnsOf encode ((db.stream s).map eventOf)).flatMap Turn.messages

def mergedOwn (encode : Lua → Except Lua String) (decode : Lua → Except Lua Lua)
    (column : Obj → String) (db : Database) (s : String) : List Lua :=
  (turnsOf encode ((db.stream s).map (mergedOf decode column))).flatMap Turn.messages

/-- The tag of an empty log is nothing to the fold. -/
theorem fold_hostArray (events : List Lua) :
    fold encode (hostArray events) device = fold encode (array events) device := by
  cases events <;> rfl

theorem foldSession_ok {s : String} {r : Lua} :
    foldSession encode db s device = .ok r ↔
      (∀ e ∈ db.stream s, (∃ ev, jsonToLua 1 (eventValue e) = .ok ev) ∧
        Readable encode (eventOf e)) ∧ r = requestOf device (ownMessages encode db s) := by
  simp only [foldSession, bind, Except.bind]
  constructor
  · intro h
    cases hevents : sessionEvents db s with
    | error e =>
        rw [hevents] at h
        cases h
    | ok v =>
        obtain ⟨hall, rfl⟩ := sessionEvents_ok.mp hevents
        rw [hevents] at h
        simp only [fold_hostArray] at h
        obtain ⟨hread, rfl⟩ := fold_array_ok.mp h
        exact ⟨fun e he => ⟨hall e he, hread _ (List.mem_map_of_mem he)⟩, rfl⟩
  · rintro ⟨hall, rfl⟩
    rw [sessionEvents_ok.mpr ⟨fun e he => (hall e he).1, rfl⟩]
    refine (fold_hostArray _).trans (fold_array_ok.mpr ⟨fun ev hev => ?_, rfl⟩)
    obtain ⟨e, he, rfl⟩ := List.mem_map.mp hev
    exact (hall e he).2

/-- The rows of the read are the events of the listed sessions. -/
theorem forall_mergeRows {P : Current → Prop} :
    (∀ row ∈ mergeRows db (sessions.map streamId), P row.event) ↔
      ∀ s ∈ sessions, ∀ e ∈ db.stream (streamId s), P e := by
  simp only [mergeRows, List.mem_insertionSort, List.mem_filter, decide_eq_true_eq]
  constructor
  · intro h s hs e he
    exact h ⟨streamId s, e⟩ ⟨Database.mem_stream.mp he, List.mem_map_of_mem hs⟩
  · rintro h ⟨stream, e⟩ ⟨hmem, hlisted⟩
    obtain ⟨s, hs, rfl⟩ := List.mem_map.mp hlisted
    exact h s hs e (Database.mem_stream.mpr hmem)

/-- The messages of the listed sessions are those of their events. -/
theorem mergedMessages_listed (device : Device) (hn : Knl.Numbered db) {messages : List Lua} :
    mergedMessages encode ((mergeRows db (sessions.map streamId)).map fun row =>
        (.str row.stream, mergedOf decode column row.event)) device (sessions.map streamId) =
        .ok messages ↔
      (∀ s ∈ sessions, ∀ e ∈ db.stream (streamId s), Readable encode (mergedOf decode column e)) ∧
        messages = sessions.flatMap fun s => mergedOwn encode decode column db (streamId s) := by
  have hbucket {s : Listed} (hs : s ∈ sessions) :
      bucket ((mergeRows db (sessions.map streamId)).map fun row =>
        (.str row.stream, mergedOf decode column row.event)) (streamId s) =
      (db.stream (streamId s)).map (mergedOf decode column) :=
    bucket_eq hn (List.mem_map_of_mem hs)
  have hread : (∀ id ∈ sessions.map streamId, ∀ ev ∈ bucket ((mergeRows db
        (sessions.map streamId)).map fun row => (.str row.stream, mergedOf decode column row.event))
        id, Readable encode ev) ↔
      ∀ s ∈ sessions, ∀ e ∈ db.stream (streamId s), Readable encode (mergedOf decode column e) := by
    rw [List.forall_mem_map]
    refine forall₂_congr fun s hs => ?_
    rw [hbucket hs, List.forall_mem_map]
  rw [mergedMessages_ok, hread, List.flatMap_map]
  refine and_congr_right fun _ => ?_
  rw [List.flatMap_congr fun s hs => by rw [hbucket hs]]
  rfl

/-- **What the merge answers**, where the read is whole. -/
theorem merge_ok (hn : Knl.Numbered db)
    (hwhole : (mergeRows db (sessions.map streamId)).length ≤ limit) {request : Lua} :
    (merge encode decode column sessions limit db (array events) device).1 = .ok request ↔
      (∀ s ∈ sessions, ∀ e ∈ db.stream (streamId s),
        (∃ v, decode (.str (column e.data)) = .ok v) ∧ Readable encode (mergedOf decode column e)) ∧
      (∀ ev ∈ events, Readable encode ev) ∧
      request = (requestOf device ((turnsOf encode events).flatMap Turn.messages)).set "messages"
        (array (sessions.flatMap (fun s => mergedOwn encode decode column db (streamId s)) ++
          (turnsOf encode events).flatMap Turn.messages)) := by
  have hrun : (merge encode decode column sessions limit db (array events) device).1 =
      (byStream decode ((mergeRows db (sessions.map streamId)).map (rowValue column))).bind
        fun found => (mergedMessages encode found device (sessions.map streamId)).bind
        fun messages => (fold encode (array events) device).bind
        fun request => (request.get "messages").ipairs.bind
        fun own => .ok (request.set "messages" (array (messages ++ own))) := by
    -- the query was not cut, so the rows are all events of the listed streams
    have hcut : decide (limit < (mergeRows db (sessions.map streamId)).length) = false :=
      decide_eq_false (Nat.not_lt.mpr hwhole)
    simp only [merge, query, List.take_of_length_le hwhole, hcut]
    rfl
  rw [hrun]
  constructor
  · intro h
    cases hfound : byStream decode ((mergeRows db (sessions.map streamId)).map (rowValue column)) with
    | error e =>
        rw [hfound] at h
        cases h
    | ok found =>
        rw [hfound] at h
        obtain ⟨hdecodes, rfl⟩ := byStream_ok.mp hfound
        simp only [Except.bind] at h
        split at h
        · cases h
        next messages hmessages =>
        obtain ⟨hlisted, rfl⟩ := (mergedMessages_listed device hn).mp hmessages
        split at h
        · cases h
        next own hown =>
        obtain ⟨hread, rfl⟩ := fold_array_ok.mp hown
        rw [requestOf_messages] at h
        cases h
        refine ⟨fun s hs e he => ⟨?_, hlisted s hs e he⟩, hread, rfl⟩
        exact forall_mergeRows (P := fun e => ∃ v, decode (.str (column e.data)) = .ok v)
          |>.mp hdecodes s hs e he
  · rintro ⟨hlisted, hread, rfl⟩
    have hdecodes := forall_mergeRows (P := fun e => ∃ v, decode (.str (column e.data)) = .ok v)
      |>.mpr fun s hs e he => (hlisted s hs e he).1
    have hmessages := (mergedMessages_listed device hn).mpr
      ⟨fun s hs e he => (hlisted s hs e he).2, rfl⟩
    have hown := (@fold_array_ok _ _ device _).mpr ⟨hread, rfl⟩
    rw [byStream_ok.mpr ⟨hdecodes, rfl⟩]
    simp only [Except.bind]
    rw [hmessages, hown]
    simp only [requestOf_messages]
    rfl

end

section

variable {encode : Lua → Except Lua String} {decode : Lua → Except Lua Lua} {column : Obj → String}
variable {db : Database} {sessions : List Listed} {limit : Nat} {events : List Lua}
variable {device : Device}

theorem ReadsAlike.readable_merged {e : Current} (h : ReadsAlike encode decode column e) :
    Readable encode (mergedOf decode column e) := by
  refine readable_of_heard rfl ?_ h.readable h.heard
  rw [mergedOf_kind, (eventOf_get h.converts).2.1]

/-- What is heard alike is said alike. -/
theorem mergedOwn_eq {s : String} (h : ∀ e ∈ db.stream s, ReadsAlike encode decode column e) :
    mergedOwn encode decode column db s = ownMessages encode db s := by
  have hhearing : hearing encode ((db.stream s).map (mergedOf decode column)) =
      hearing encode ((db.stream s).map eventOf) := by
    simp only [hearing, List.map_map]
    exact List.map_congr_left fun e he => (h e he).heard
  rw [mergedOwn, ownMessages, turnsOf, turnsOf, hhearing]

/-- And what is said alike, session after session, was heard alike. -/
theorem heard_of_messages {r : List Lua}
    (hown : ∀ s ∈ sessions, ∀ e ∈ db.stream (streamId s),
      (∃ ev, jsonToLua 1 (eventValue e) = .ok ev) ∧ Readable encode (eventOf e))
    (hmerged : ∀ s ∈ sessions, ∀ e ∈ db.stream (streamId s),
      (∃ v, decode (.str (column e.data)) = .ok v) ∧ Readable encode (mergedOf decode column e))
    (h : sessions.flatMap (fun s => mergedOwn encode decode column db (streamId s)) ++ r =
      sessions.flatMap (fun s => ownMessages encode db (streamId s)) ++ r) :
    ∀ s ∈ sessions, ∀ e ∈ db.stream (streamId s), ReadsAlike encode decode column e := by
  induction sessions with
  | nil => exact fun s hs => nomatch hs
  | cons s rest ih =>
      obtain ⟨hown₀, hown'⟩ := List.forall_mem_cons.mp hown
      obtain ⟨hmerged₀, hmerged'⟩ := List.forall_mem_cons.mp hmerged
      have hsame : List.Forall₂ SameSort
          (hearing encode ((db.stream (streamId s)).map (mergedOf decode column)))
          (hearing encode ((db.stream (streamId s)).map eventOf)) := by
        simp only [hearing, List.map_map]
        rw [List.forall₂_map_left_iff, List.forall₂_map_right_iff, List.forall₂_same]
        intro e he
        refine sameSort_heard ?_ (hmerged₀ e he).2 (hown₀ e he).2
        rw [mergedOf_kind, (eventOf_get (hown₀ e he).1).2.1]
      simp only [List.flatMap_cons, List.append_assoc] at h
      obtain ⟨hhearing, hrest⟩ := turns_inj hsame h
      refine List.forall_mem_cons.mpr ⟨fun e he => ?_, ih hown' hmerged' hrest⟩
      refine ⟨(hown₀ e he).1, (hmerged₀ e he).1, (hown₀ e he).2, ?_⟩
      simp only [hearing, List.map_map] at hhearing
      exact List.map_inj_left.mp hhearing e he

/-- Where the seqs of every stream are positions, the merge reads the sessions as
they read themselves exactly where each of their events reads the same. -/
theorem reads_iff (hn : Knl.Numbered db)
    (hwhole : (mergeRows db (sessions.map streamId)).length ≤ limit) :
    ReadsSessions encode db sessions events device
        (merge encode decode column sessions limit db (array events) device) ↔
      (∀ s ∈ sessions, ∀ e ∈ db.stream (streamId s), ReadsAlike encode decode column e) ∧
        ∀ ev ∈ events, Readable encode ev := by
  constructor
  · rintro ⟨⟨request, own, folds, parent, hrequest, hparent, hmessages, hfolds, hall, -⟩, -⟩
    obtain ⟨hmerged, hread, rfl⟩ := (merge_ok hn hwhole).mp hrequest
    obtain ⟨-, rfl⟩ := fold_array_ok.mp hparent
    rw [requestOf_messages] at hmessages
    obtain rfl := (Lua.table.inj hmessages).1
    have hown : (∀ s ∈ sessions, ∀ e ∈ db.stream (streamId s),
        (∃ ev, jsonToLua 1 (eventValue e) = .ok ev) ∧ Readable encode (eventOf e)) ∧
        folds = sessions.map fun s => ownMessages encode db (streamId s) := by
      clear hall hmerged hrequest hwhole
      induction hfolds with
      | nil => exact ⟨(fun _ hs => nomatch hs), rfl⟩
      | cons hs _ ih =>
          obtain ⟨r, hr, hget⟩ := hs
          obtain ⟨hconverts, rfl⟩ := foldSession_ok.mp hr
          rw [requestOf_messages] at hget
          obtain rfl := (Lua.table.inj hget).1
          obtain ⟨hrest, rfl⟩ := ih
          -- each session's own fold exists only where its events convert and can be read
          exact ⟨List.forall_mem_cons.mpr ⟨hconverts, hrest⟩, rfl⟩
    obtain ⟨hown, rfl⟩ := hown
    refine ⟨heard_of_messages (r := (turnsOf encode events).flatMap Turn.messages) hown hmerged ?_,
      hread⟩
    have hset : array _ = array _ := hall
    rw [List.flatMap_def (f := fun s => ownMessages encode db (streamId s))]
    exact (Lua.table.inj hset).1
  · rintro ⟨halike, hread⟩
    refine ⟨⟨_, _, sessions.map fun s => ownMessages encode db (streamId s), _,
      (merge_ok hn hwhole).mpr ⟨fun s hs e he => ⟨(halike s hs e he).decodes,
        (halike s hs e he).readable_merged⟩, hread, rfl⟩,
      fold_array_ok.mpr ⟨hread, rfl⟩, requestOf_messages _, ?_, ?_, rfl, rfl, ?_⟩, rfl⟩
    · rw [List.forall₂_map_right_iff, List.forall₂_same]
      intro s hs
      refine ⟨_, foldSession_ok.mpr ⟨fun e he => ?_, rfl⟩, requestOf_messages _⟩
      exact ⟨(halike s hs e he).converts, (halike s hs e he).readable⟩
    · have hlisted : sessions.flatMap (fun s => mergedOwn encode decode column db (streamId s)) =
          (sessions.map fun s => ownMessages encode db (streamId s)).flatten := by
        rw [List.flatMap_congr fun s hs => mergedOwn_eq (halike s hs), List.flatMap_def]
      rw [hlisted]
      rfl
    · intro messages hmem
      obtain hmem | hmem := List.mem_append.mp hmem
      · obtain ⟨s, hs, rfl⟩ := List.mem_map.mp hmem
        refine (kept_of_readable fun ev hev => ?_).answered
        obtain ⟨e, he, rfl⟩ := List.mem_map.mp hev
        exact (halike s hs e he).readable
      · obtain rfl := List.mem_singleton.mp hmem
        exact (kept_of_readable hread).answered

end

/-- A greeting, and the database of one session that recorded it. -/
def greeting : Obj := [("kind", .str "msg_user"), ("data", .obj [("content", .str "hi")])]

def greetedLog : Database := Knl.appendRow Knl.still [] "child" greeting

/-- The one text of that log, decoded. -/
def decodeGreeting : Lua → Except Lua Lua
  | .str "\x7b\"content\":\"hi\"\x7d" => .ok (record [("content", .str "hi")])
  | _ => .error (.str "expected value")

mutual

/-- Whether a value is the sentinel or holds it. -/
def holdsNull : Lua → Bool
  | .null => true
  | .table items fields => itemsHoldNull items || fieldsHoldNull fields
  | _ => false

def itemsHoldNull : List Lua → Bool
  | [] => false
  | v :: rest => holdsNull v || itemsHoldNull rest

def fieldsHoldNull : List (String × Lua) → Bool
  | [] => false
  | (_, v) :: rest => holdsNull v || fieldsHoldNull rest

end

/-- Decoding makes every null `nil`. -/
def NullIsNil (decode : Lua → Except Lua Lua) (column : Obj → String) : Prop :=
  ∀ data v, decode (.str (column data)) = .ok v → holdsNull v = false

theorem lookup_no_null {fields : List (String × Lua)} (h : fieldsHoldNull fields = false)
    (key : String) : holdsNull (Lua.lookup fields key) = false := by
  induction fields with
  | nil => rfl
  | cons f rest ih =>
      obtain ⟨k, v⟩ := f
      obtain ⟨hv, hrest⟩ := Bool.or_eq_false_iff.mp h
      rw [Lua.lookup]
      split
      · exact hv
      · exact ih hrest

theorem get_no_null {v : Lua} (h : holdsNull v = false) (key : String) :
    holdsNull (v.get key) = false := by
  cases v with
  | table items fields => exact lookup_no_null (Bool.or_eq_false_iff.mp h).2 key
  | _ => rfl

section

variable {encode : Lua → Except Lua String} {decode : Lua → Except Lua Lua} {column : Obj → String}

/-- **No response of a session that reads the same holds a null.** -/
theorem ReadsAlike.no_null (hdecode : NullIsNil decode column) {e : Current}
    (h : ReadsAlike encode decode column e) (hkind : e.kind = "llm_response") :
    holdsNull ((dataOf (eventOf e)).get "content") = false := by
  have hown : (eventOf e).get "kind" = .str "llm_response" := by
    rw [(eventOf_get h.converts).2.1, hkind]
  have hmerged : (mergedOf decode column e).get "kind" = .str "llm_response" := by
    rw [mergedOf_kind, hkind]
  have hheard := h.heard
  rw [heard_response hown, heard_response hmerged] at hheard
  have hcontent := congrArg (fun m => m.get "content") (Heard.said.inj hheard).1
  simp only [content_assistantMessage] at hcontent
  rw [← hcontent]
  refine get_no_null ?_ "content"
  obtain ⟨v, hv⟩ := h.decodes
  rw [dataOf, mergedOf_data, hv]
  split
  · exact hdecode e.data v hv
  · rfl

end

/-- A response that calls a tool with a null in its input. -/
def nullCall : Obj :=
  [("kind", .str "llm_response"), ("data", .obj [("content", .arr [.obj [("type", .str "tool_use"),
    ("id", .str "t1"), ("name", .str "read"), ("input", .obj [("path", .null)])]])])]

/-- The database of one session, which recorded it. -/
def nullLog : Database := Knl.appendRow Knl.still [] "child" nullCall

end AgentBlock.Supervisor
