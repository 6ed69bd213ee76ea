/-
AgentBlock/Policy/Ledger.lean

The facts of a run, counted off its log, and the message that carries them
beside a summary.

A ledger is read off the whole log, recorded as data beside the summary the
model wrote, and rendered as lines when the summary is read.  What text a value
that is no string has, is a parameter.

Main results:

* `renderLedger_toLua` — what is counted off a log renders;
* `renderSummary_toLua` — the message of a summary holds its text and the ledger.
-/
import AgentBlock.Lib.Except
import AgentBlock.Policy.Window

namespace AgentBlock.Policy

open Lua (record array)
open Shell (isKind dataOf)

def SUMMARY_KIND : String := "summary"

/-! ### Tables by name -/

/-- Put what comes of the entry under a key in its place. -/
def upsert {α : Type} (key : String) (f : Option α → α) : List (String × α) → List (String × α)
  | [] => [(key, f none)]
  | (k, v) :: rest => if k = key then (k, f (some v)) :: rest else (k, v) :: upsert key f rest

/-- The entries of a table that is built from these. -/
def fieldsOf {α : Type} (value : α → Lua) (entries : List (String × α)) : Lua :=
  .table [] (entries.map fun e => (e.1, value e.2))

/-- The keys of a table, sorted. -/
def sortedKeys : Lua → List String
  | .table _ fields => (fields.map Prod.fst).insertionSort (· ≤ ·)
  | _ => []

/-! ### Counting -/

/-- What a kind of check came to. -/
structure Tally where
  count : Nat := 0
  passed : Nat := 0
  lastOk : Option Bool := none

/-- The facts of a run. -/
structure Ledger where
  beats : Nat := 0
  summaries : Nat := 0
  calls : List (String × Nat) := []
  touched : List (String × List (String × List String)) := []
  checks : List (String × Tally) := []

section

variable (tostring : Lua → String)

/-- What a name is written as. -/
def nameOf : Lua → String
  | .str s => s
  | v => tostring v

variable (track kinds : List String)

/-- The values a tool was handed, by the keys that are kept; of a value that was
there, nothing changes. -/
def touch (args : Lua) (touched : List (String × List String)) : List (String × List String) :=
  track.foldl (fun touched key =>
    match args.get key with
    | .str value => upsert key (fun known => (known.getD []).insert value) touched
    | _ => touched) touched

/-- The arguments hold a value that is kept. -/
def touches (args : Lua) : Bool := track.any fun key => (args.get key).asStr.isSome

namespace Ledger

def call (l : Ledger) (data : Lua) : Ledger :=
  let name := nameOf tostring (data.get "name")
  let args := data.get "args"
  { l with
    calls := upsert name (fun n => n.getD 0 + 1) l.calls
    touched :=
      if touches track args then upsert name (fun t => touch track args (t.getD [])) l.touched
      else l.touched }

def checked (l : Ledger) (kind : String) (data : Lua) : Ledger :=
  let ok := (data.get "ok").eq (.bool true)
  { l with
    checks := upsert kind (fun tally =>
      let tally := tally.getD {}
      { count := tally.count + 1, passed := tally.passed + ok.toNat, lastOk := some ok }) l.checks }

/-- One event more. -/
def event (l : Ledger) (ev : Lua) : Ledger :=
  match ev.get "kind" with
  | .str kind =>
      if kind = SUMMARY_KIND then { l with summaries := l.summaries + 1 }
      else if kind = "tool_call" then l.call tostring track (dataOf ev)
      else if kind ∈ kinds then l.checked kind (dataOf ev)
      else l
  | _ => l

end Ledger

/-- **The facts of a run**, off the whole of its log. -/
def ledgerOf (events : List Lua) : Ledger :=
  { events.foldl (Ledger.event tostring track kinds) {} with beats := beatCount events }

/-- What `policy.ledger` reads of a session. -/
def ledger (log : List Lua × Bool) : Except Lua Ledger := do
  let events ← wholeLog log "policy.ledger"
  .ok (ledgerOf tostring track kinds events)

end

/-! ### As data -/

def Tally.toLua (t : Tally) : Lua :=
  record [("count", .num (.int t.count)), ("passed", .num (.int t.passed)),
    ("last_ok", t.lastOk.elim .nil .bool)]

/-- The values a tool was handed under a key, sorted. -/
def handedLua (values : List String) : Lua := array ((values.insertionSort (· ≤ ·)).map .str)

def touchedLua : List (String × List (String × List String)) → Lua :=
  fieldsOf (fieldsOf handedLua)

/-- A ledger as an event holds it. -/
def Ledger.toLua (l : Ledger) : Lua :=
  record [("beats", .num (.int l.beats)), ("summaries", .num (.int l.summaries)),
    ("calls", fieldsOf (fun n : Nat => .num (.int n)) l.calls),
    ("touched", touchedLua l.touched),
    ("checks", fieldsOf Tally.toLua l.checks)]

/-! ### As text -/

/-- `%d` of a value. -/
def formatNumber : Lua → Except Lua String
  | .num n => formatInt n
  | v => .error (.str ("bad argument to 'format' (number expected, got " ++ v.type ++ ")"))

section

variable (tostring : Lua → String)

/-- An item of a list that is joined. -/
def joinable : Lua → Except Lua String
  | .str s => .ok s
  | .num n => .ok (tostring (.num n))
  | v => .error (.str ("invalid value (" ++ v.type ++ ") in table for 'concat'"))

/-- `table.concat(v, sep)`. -/
def concat (sep : String) (v : Lua) : Except Lua String := do
  let parts ← (← v.ipairs).mapM (joinable tostring)
  .ok (sep.intercalate parts)

/-- What one tool was handed, key by key. -/
def touchedText (byKey : Lua) : Except Lua String := do
  if byKey.isNil then .ok ""
  else
    let parts ← (sortedKeys byKey).mapM fun key => do
      let values ← concat tostring ", " (byKey.get key)
      .ok ("; " ++ key ++ ": " ++ values)
    .ok (String.join parts)

def callLine (calls touched : Lua) (name : String) : Except Lua String := do
  let count ← formatNumber (calls.get name)
  let handed ← touchedText tostring (touched.get name)
  .ok (name ++ ": called " ++ count ++ " time" ++
    (if (calls.get name).eq (.num (.int 1)) then "" else "s") ++ handed)

/-- How the last check went. -/
def lastText (tally : Lua) : String :=
  if (tally.get "last_ok").eq (.bool true) then "the last one passed"
  else if (tally.get "last_ok").eq (.bool false) then "the last one failed"
  else "none ran"

def checkLine (checks : Lua) (kind : String) : Except Lua String := do
  let tally := checks.get kind
  let count ← formatNumber (tally.get "count")
  let passed ← formatNumber (tally.get "passed")
  .ok (kind ++ ": " ++ count ++ " run, " ++ passed ++ " passed, " ++ lastText tally)

/-- A ledger as lines of text, one fact a line, in a fixed order. -/
def renderLedger (ledger : Lua) : Except Lua String := do
  let beats ← formatNumber (ledger.get "beats")
  let summaries ← formatNumber (ledger.get "summaries")
  let calls := (ledger.get "calls").orElse (.table [] [])
  let touched := (ledger.get "touched").orElse (.table [] [])
  let called ← (sortedKeys calls).mapM (callLine tostring calls touched)
  let checks := (ledger.get "checks").orElse (.table [] [])
  let checked ← (sortedKeys checks).mapM (checkLine checks)
  .ok ("\n".intercalate
    (("beats so far: " ++ beats ++ "; summaries before this one: " ++ summaries) ::
      called ++ checked))

/-- What a rendered summary opens with. -/
def SUMMARY_PREFIX : String :=
  "The earlier part of this conversation was compacted. What follows is the summary " ++
    "written at that point, and a ledger of facts read off the record. Where the task " ++
    "message above describes a state of the files or the build, the ledger below is " ++
    "newer and is what holds now."

/-- The parts of the message a summary is read as. -/
def summaryParts (text : String) : Option String → List String
  | none => [SUMMARY_PREFIX, "Summary:\n" ++ text]
  | some ledger => [SUMMARY_PREFIX, "Summary:\n" ++ text, "Ledger:\n" ++ ledger]

/-- A summary as the one message the model reads in its place. -/
def renderSummary (data : Lua) : Except Lua String := do
  let text := nameOf tostring (data.get "content")
  let ledger ←
    if (data.get "ledger").isTable then (renderLedger tostring (data.get "ledger")).map some
    else .ok none
  .ok ("\n\n".intercalate (summaryParts text ledger))

end

/-! ### What is counted renders -/

section

variable {tostring : Lua → String} {α : Type} {value : α → Lua} {entries : List (String × α)}

theorem exists_of_mem_sortedKeys {key : String} (h : key ∈ sortedKeys (fieldsOf value entries)) :
    ∃ v, (fieldsOf value entries).get key = value v := by
  rw [fieldsOf, sortedKeys, List.mem_insertionSort, List.map_map] at h
  induction entries with
  | nil => cases h
  | cons e rest ih =>
      by_cases hkey : e.1 = key
      · exact ⟨e.2, if_pos hkey⟩
      · obtain ⟨v, hv⟩ := ih ((List.mem_cons.mp h).resolve_left (Ne.symm hkey))
        exact ⟨v, (if_neg hkey).trans hv⟩

/-- An entry of such a table is one of its values, or there is none. -/
theorem get_fieldsOf (key : String) :
    (fieldsOf value entries).get key = .nil ∨
      ∃ v, (fieldsOf value entries).get key = value v := by
  induction entries with
  | nil => exact .inl rfl
  | cons e rest ih =>
      by_cases hkey : e.1 = key
      · exact .inr ⟨e.2, if_pos hkey⟩
      · have hrest : (fieldsOf value (e :: rest)).get key = (fieldsOf value rest).get key :=
          if_neg hkey
        rwa [hrest]

theorem concat_array (sep : String) (texts : List String) :
    concat tostring sep (array (texts.map .str)) = .ok (sep.intercalate texts) := by
  have hparts : (texts.map Lua.str).mapM (joinable tostring) = .ok texts := by
    rw [List.mapM_map]
    exact (Except.mapM_eq_ok fun _ _ => rfl).trans (by rw [List.map_id'])
  show ((texts.map Lua.str).mapM (joinable tostring) >>= _) = _
  rw [hparts]
  rfl

theorem exists_touchedText (touched : List (String × List (String × List String)))
    (name : String) :
    ∃ text, touchedText tostring ((touchedLua touched).get name) = .ok text := by
  rcases get_fieldsOf name with hnone | ⟨byKey, hbyKey⟩
  · exact ⟨"", by rw [touchedLua, hnone]; rfl⟩
  · rw [touchedLua, hbyKey]
    have hkeys : ∃ parts, (sortedKeys (fieldsOf handedLua byKey)).mapM (fun key => do
          let values ← concat tostring ", " ((fieldsOf handedLua byKey).get key)
          .ok ("; " ++ key ++ ": " ++ values)) = .ok parts := by
      apply Except.exists_mapM_eq_ok
      intro key hkey
      obtain ⟨values, hvalues⟩ := exists_of_mem_sortedKeys hkey
      rw [hvalues, handedLua, concat_array]
      exact ⟨_, rfl⟩
    obtain ⟨parts, hparts⟩ := hkeys
    refine ⟨String.join parts, ?_⟩
    show (List.mapM _ _ >>= _) = _
    rw [hparts]
    rfl

theorem exists_callLine {calls : List (String × Nat)}
    (touched : List (String × List (String × List String))) {name : String}
    (h : name ∈ sortedKeys (fieldsOf (fun n : Nat => .num (.int n)) calls)) :
    ∃ line, callLine tostring (fieldsOf (fun n : Nat => .num (.int n)) calls)
      (touchedLua touched) name = .ok line := by
  obtain ⟨count, hcount⟩ := exists_of_mem_sortedKeys h
  obtain ⟨handed, hhanded⟩ := @exists_touchedText tostring touched name
  unfold callLine
  rw [hcount, hhanded]
  exact ⟨_, rfl⟩

theorem exists_checkLine {checks : List (String × Tally)} {kind : String}
    (h : kind ∈ sortedKeys (fieldsOf Tally.toLua checks)) :
    ∃ line, checkLine (fieldsOf Tally.toLua checks) kind = .ok line := by
  obtain ⟨tally, htally⟩ := exists_of_mem_sortedKeys h
  have hcount : tally.toLua.get "count" = .num (.int tally.count) := rfl
  have hpassed : tally.toLua.get "passed" = .num (.int tally.passed) := rfl
  unfold checkLine
  simp only [htally, hcount, hpassed]
  exact ⟨_, rfl⟩

/-- **A ledger renders** as it was recorded. -/
theorem renderLedger_toLua (l : Ledger) : ∃ text, renderLedger tostring l.toLua = .ok text := by
  have hbeats : l.toLua.get "beats" = .num (.int l.beats) := rfl
  have hsummaries : l.toLua.get "summaries" = .num (.int l.summaries) := rfl
  have hcalls : (l.toLua.get "calls").orElse (.table [] []) =
      fieldsOf (fun n : Nat => .num (.int n)) l.calls := rfl
  have htouched : (l.toLua.get "touched").orElse (.table [] []) = touchedLua l.touched := rfl
  have hchecks : (l.toLua.get "checks").orElse (.table [] []) =
      fieldsOf Tally.toLua l.checks := rfl
  obtain ⟨called, hcalled⟩ := Except.exists_mapM_eq_ok fun name (hname : name ∈ sortedKeys _) =>
    exists_callLine l.touched hname
  obtain ⟨checked, hchecked⟩ := Except.exists_mapM_eq_ok fun kind (hkind : kind ∈ sortedKeys _) =>
    exists_checkLine hkind
  unfold renderLedger
  simp only [hbeats, hsummaries, hcalls, htouched, hchecks]
  rw [hcalled, hchecked]
  exact ⟨_, rfl⟩

/-- **The message of a summary** holds its text, and the ledger beside it. -/
theorem renderSummary_toLua (text : String) (l : Ledger) :
    ∃ ledger, renderLedger tostring l.toLua = .ok ledger ∧
      renderSummary tostring (record [("content", .str text), ("ledger", l.toLua)]) =
        .ok ("\n\n".intercalate [SUMMARY_PREFIX, "Summary:\n" ++ text, "Ledger:\n" ++ ledger]) := by
  obtain ⟨ledger, hledger⟩ := @renderLedger_toLua tostring l
  refine ⟨ledger, hledger, ?_⟩
  have hdata : (record [("content", .str text), ("ledger", l.toLua)]).get "ledger" = l.toLua := rfl
  have htable : l.toLua.isTable = true := rfl
  unfold renderSummary
  simp only [hdata, htable, if_true, hledger]
  rfl

end

end AgentBlock.Policy
