/-
AgentBlock/Policy/Window.lean

The window: a fold over the last beats of a session.

A beat is named by the label its events carry, and the window is cut at the
place its oldest beat first appears at.  A room-sized window looks for the most
beats whose request fits the room, counting each candidate.  What renders a
summary as a message is a parameter, as is what renders a result.
-/
import AgentBlock.Lib.Bisect
import AgentBlock.Lib.Firsts
import AgentBlock.Policy.Room
import AgentBlock.Shell.Turns

namespace AgentBlock.Policy

open Lua (record array)
open Shell (isKind dataOf Device)

/-! ### Beats -/

/-- The id of a beat: a label, which is a scalar. -/
inductive Label where
  | bool (b : Bool)
  | num (n : LuaNumber)
  | str (s : String)
  deriving DecidableEq

/-- A number as the key of a table: a float that is an integer is that
integer. -/
def keyOf (n : LuaNumber) : LuaNumber := if n.isWhole then n.floor else n

def labelOf : Lua → Option Label
  | .bool b => some (.bool b)
  | .num n => some (.num (keyOf n))
  | .str s => some (.str s)
  | _ => none

/-- The id of the beat that wrote an event. -/
def beatOf (ev : Lua) : Option Label := labelOf ((ev.get "meta").get "beat")

/-- The beats of a list, in the order they first appear. -/
def beatIds (events : List Lua) : List Label := (firsts beatOf events).map Prod.fst

/-- How many beats a list holds. -/
def beatCount (events : List Lua) : Nat := (beatIds events).length

/-! ### The slice -/

/-- What a window left out. -/
structure WindowReport where
  dropped : List Label
  kept : Nat
  seedKept : Bool
  before : Option LuaNumber := none
  after : Option LuaNumber := none
  limit : Option LuaNumber := none
  reserve : Option LuaNumber := none

/-- Where the beat at a place of the order first appears. -/
def firstAt (events : List Lua) (i : Nat) : Nat :=
  match (firsts beatOf events)[i]? with
  | some (_, place) => place
  | none => events.length

/-- The tail of a list that begins at the first event of a beat, the events
before the first beat, where they are kept, ahead of it. -/
def windowSlice (events : List Lua) (tail : Nat) (keepSeed : Bool) : List Lua × WindowReport :=
  let order := beatIds events
  if order.length ≤ tail then
    (events, { dropped := [], kept := order.length, seedKept := true })
  else
    let cut := order.length - tail
    let seed := if keepSeed then events.take (firstAt events 0) else []
    (seed ++ events.drop (firstAt events cut),
      { dropped := order.take cut, kept := tail, seedKept := keepSeed })

/-- A list around the latest event of a kind. -/
def latest (kind : String) : List Lua → Option (List Lua × Lua × List Lua)
  | [] => none
  | ev :: rest =>
      match latest kind rest with
      | some (before, found, after) => some (ev :: before, found, after)
      | none => if isKind kind ev then some ([], ev, rest) else none

section

variable (renderSummary : Lua → Except Lua String)

/-- The events before the first beat, the latest summary as one message, and
what follows it. -/
def fromLatestSummary (events : List Lua) : Except Lua (List Lua) :=
  match latest "summary" events with
  | none => .ok events
  | some (before, summary, after) => do
      let content ← renderSummary (dataOf summary)
      let message := record [("kind", .str "msg_user"),
        ("data", record [("content", .str content)])]
      .ok (before.takeWhile (fun ev => (beatOf ev).isNone) ++ message :: after)

end

/-- The whole log of a session, or a raise where one read, which says whether it
was cut short, does not hold it. -/
def wholeLog (log : List Lua × Bool) (who : String) : Except Lua (List Lua) :=
  if log.2 then
    .error (.str (who ++ ": the session's log is longer than one read of it — the kernel's row cap " ++
      "stopped at " ++ toString log.1.length ++ " events, so the newest beats are not in what came " ++
      "back and this policy would be judging a run that has already moved on; window the request " ++
      "(policy.window), or start a new session"))
  else .ok log.1

/-! ### Windows -/

/-- A window over a room.  Of a tail there is at least one beat, and a summary
is kept the way the seed is. -/
structure Window where
  room : Room
  tail : Option Nat
  keepSeed : Bool
  fromSummary : Bool
  tail_pos : ∀ n, tail = some n → 1 ≤ n
  summary_kept : fromSummary = true → keepSeed = true

/-- A candidate: its request, what that counts, and what it leaves out. -/
structure Candidate where
  request : Lua
  tokens : LuaNumber
  report : WindowReport

/-- What the tokens that do not fit are of. -/
inductive Counted where
  | beat
  | seed
  deriving DecidableEq

/-- The largest window that fits, or what the smallest one cost. -/
inductive Fitted where
  | request (request : Lua) (report : WindowReport)
  | over (tokens limit : LuaNumber) (counted : Counted)

section

variable (encode : Lua → Except Lua String) (tostring : Lua → String)

/-- The window of so many beats. -/
def foldAt (room : Room) (keepSeed : Bool) (events : List Lua) (device : Device) (k : Nat) :
    Except Lua Candidate := do
  let (slice, report) := windowSlice events k keepSeed
  let request ← Shell.fold encode (array slice) device
  let tokens ← room.count tostring request
  .ok { request, tokens, report }

/-- The candidate fits the room. -/
def Candidate.fits (room : Room) (c : Candidate) : Bool := c.tokens.le room.limit

/-- The chosen candidate, with the counting on its report. -/
def Candidate.counted (room : Room) (before : LuaNumber) (c : Candidate) : Fitted :=
  .request c.request { c.report with
    before := some before, after := some c.tokens, limit := some room.limit,
    reserve := some room.held }

/-- The most beats a window may keep. -/
def mostBeats (tail : Option Nat) (events : List Lua) : Nat :=
  match tail with
  | some tail => min tail (beatCount events)
  | none => beatCount events

/-- The newest beat is never dropped. -/
def fewestBeats : Nat := 1

/-- **The largest window that fits.**  Candidates are nested, so they are
searched by halves. -/
def largestFitting (events : List Lua) (device : Device) (room : Room) (tail : Option Nat)
    (keepSeed : Bool) : Except Lua Fitted :=
  let candidate := foldAt encode tostring room keepSeed events device
  let most := mostBeats tail events
  if most < fewestBeats then do
    -- no beat yet: there is nothing to choose between
    let c ← candidate 0
    if c.fits room then .ok (c.counted room c.tokens) else .ok (.over c.tokens room.limit .seed)
  else do
    let whole ← candidate most
    if whole.fits room then .ok (whole.counted room whole.tokens)
    else
      match ← bisect candidate (Candidate.fits room) fewestBeats (most + 1) none with
      | some best => .ok (best.counted room whole.tokens)
      | none => do
          -- asked for again, it counts what it counted
          let smallest ← candidate fewestBeats
          .ok (.over smallest.tokens room.limit .beat)

namespace Window

variable (renderSummary : Lua → Except Lua String) (w : Window)

/-- What a window is handed, as it reads it. -/
def read (events : List Lua) : Except Lua (List Lua) :=
  if w.fromSummary then fromLatestSummary renderSummary events else .ok events

/-- What a fold that fits nothing raises. -/
def refuse (tokens limit : LuaNumber) (counted : Counted) : Except Lua (Lua × WindowReport) := do
  let t ← formatInt tokens
  let l ← formatInt limit
  match counted with
  | .seed => .error (.str ("policy.window: no event in this history is marked with a beat, so the " ++
      "whole of it was counted as the seed: " ++ t ++ " tokens > " ++ l ++ ". Mark the events of each " ++
      "beat with meta.beat (knl.beat does), or pass the session so the window can see the beats."))
  | .beat => .error (.str ("policy.window: the newest beat does not fit" ++
      (if w.keepSeed then " even with the seed alone beside it" else " on its own") ++ ": " ++ t ++
      " tokens > " ++ l ++ ". One tool result is larger than the window can hold — cap what a tool " ++
      "may answer (policy.result_cap). Ask the second value this factory answers before the beat to " ++
      "stop instead of failing."))

/-- **The fold of a room-sized window.** -/
def fold (events : List Lua) (device : Device) : Except Lua (Lua × WindowReport) := do
  let events ← w.read renderSummary events
  match ← largestFitting encode tostring events device w.room w.tail w.keepSeed with
  | .request request report => .ok (request, report)
  | .over tokens limit counted => w.refuse tokens limit counted

/-- **The question asked before a beat**, of a log: none where its request
fits, and the tokens and the limit, for `"context"`, where it does not. -/
def fits (log : List Lua × Bool) (device : Device) :
    Except Lua (Option (LuaNumber × LuaNumber)) := do
  let events ← wholeLog log "policy.window fits"
  let events ← w.read renderSummary events
  match ← largestFitting encode tostring events device w.room w.tail w.keepSeed with
  | .request _ _ => .ok none
  | .over tokens limit _ => .ok (some (tokens, limit))

end Window

end

end AgentBlock.Policy
