/-
AgentBlock/Policy/Room.lean

The room: what a Port's context window is divided into.

A room is built once, from the profile of a Port and the shares a caller gives,
and every number in it is read off that division.  Numbers are Lua's, so an
integer beyond `2 ^ 53` is rounded where a float is beside it.  A Port is what
it answers; what `tostring` shows of a value is a parameter, and where an error
points is left out of its text.
-/
import AgentBlock.Lib.LuaArith

namespace AgentBlock.Policy

/-! ### Numbers -/

/-- The number a value is, where it is a whole one of at least `least`. -/
def wholeAtLeast (v : Lua) (least : Int) : Option LuaNumber :=
  match v with
  | .num n => if n.isWhole && (LuaNumber.int least).le n then some n else none
  | _ => none

/-- `%d` of a number; one that is no integer of 64 bits raises. -/
def formatInt (n : LuaNumber) : Except Lua String :=
  match n.floor with
  | .int k =>
      if n.isWhole then .ok (toString k)
      else .error (.str "number has no integer representation")
  | _ => .error (.str "number has no integer representation")

/-- A check that raises this where it does not pass. -/
def check (passes : Bool) (text : String) : Except Lua Unit :=
  if passes then .ok () else .error (.str text)

/-! ### Ports -/

/-- An LLM Port, as a policy asks it: the count of a request under a conf, and
the profile of a conf. -/
structure Port where
  count : Lua → Lua → Except Lua Lua
  profile : Lua → Except Lua Lua

section

variable (tostring : Lua → String)

/-- A Port's count, held to being a number. -/
def countWith (port : Port) (conf request : Lua) (who : String) : Except Lua LuaNumber := do
  match ← port.count request conf with
  | .num n => .ok n
  | other => .error (.str (who ++ ": port:count must answer a number, got " ++ tostring other))

def contextWindow (profile : Lua) (who : String) : Except Lua LuaNumber :=
  match wholeAtLeast (profile.get "context_window") 1 with
  | some window => .ok window
  | none => .error (.str (who ++ ": the port's profile names no context_window; declare it in the " ++
      "conf the port is opened with (context_window = <tokens>) or on the port"))

/-- The cap the wire puts on a reply, and 0 where it puts none. -/
def maxOutput (profile : Lua) (who : String) : Except Lua LuaNumber :=
  match profile.get "max_output" with
  | .nil => .ok (.int 0)
  | v =>
      match wholeAtLeast v 0 with
      | some output => .ok output
      | none => .error (.str (who ++
          ": profile.max_output must be a whole number >= 0, got " ++ tostring v))

def leavesNoRoom (who : String) (output window : LuaNumber) :
    Except Lua (LuaNumber × LuaNumber) := do
  let o ← formatInt output.floor
  let w ← formatInt window.floor
  .error (.str (who ++ ": profile.max_output (" ++ o ++ ") leaves no room in context_window (" ++
    w ++ ")"))

/-- **The two numbers the window is split by.** -/
def profileSplit (profile : Lua) (who : String) : Except Lua (LuaNumber × LuaNumber) := do
  check profile.isTable (who ++ ": port:profile(conf) must answer a table, got " ++ tostring profile)
  let window ← contextWindow profile who
  let output ← maxOutput tostring profile who
  if window.le output then leavesNoRoom who output window
  else .ok (window.floor, output.floor)

def holdsTooMuch (who : String) (reserve output window : LuaNumber) :
    Except Lua (LuaNumber × LuaNumber) := do
  let r ← formatInt reserve.floor
  let o ← formatInt output
  let w ← formatInt window
  .error (.str (who ++ ": reserve (" ++ r ++ ") beside profile.max_output (" ++ o ++
    ") leaves no room in context_window (" ++ w ++ ")"))

/-- The tokens a request may take, and what is held back beyond the cap. -/
def requestLimit (profile : Lua) (who : String) (reserve : LuaNumber) :
    Except Lua (LuaNumber × LuaNumber) := do
  let (window, output) ← profileSplit tostring profile who
  let held := (LuaNumber.int 0).max (reserve.sub output)
  let limit := (window.sub output).sub held
  if limit.lt (.int 1) then holdsTooMuch who reserve output window
  else .ok (limit, held)

/-- The tokens the reply may take beside a request of this count. -/
def replyRoom (profile : Lua) (who : String) (used : LuaNumber) : Except Lua LuaNumber := do
  let (window, output) ← profileSplit tostring profile who
  let room := window.sub used
  .ok (if (LuaNumber.int 0).lt output && output.lt room then output else room)

end

/-! ### Rooms -/

/-- What a room is built from, beside its Port.  A number is one Lua has. -/
structure RoomOpts where
  conf : Lua := .nil
  reserve : Lua := .nil
  resultShare : Lua := .nil
  beatShare : Lua := .nil
  callReserve : Lua := .nil
  representable : ∀ n, .num n ∈ [reserve, resultShare, beatShare, callReserve] → n.Representable

/-- A room. -/
structure Room where
  port : Port
  conf : Lua
  profile : Lua
  window : LuaNumber
  maxOutput : LuaNumber
  limit : LuaNumber
  held : LuaNumber
  reserve : LuaNumber
  resultShare : LuaNumber
  resultLimit : LuaNumber
  beatShare : LuaNumber
  beatBudget : LuaNumber
  callReserve : Option LuaNumber

def DEFAULT_RESULT_SHARE : LuaNumber := .float (1 / 4)

def DEFAULT_BEAT_SHARE : LuaNumber := .float (1 / 2)

/-- The number an option is, or what stands in for it. -/
def numberOr (v : Lua) (other : LuaNumber) : LuaNumber :=
  match v with
  | .num n => n
  | _ => other

/-- A share is a number that is not outside `(0, 1]`. -/
def isShare : Lua → Bool
  | .nil => true
  | .num n => !n.le (.int 0) && !(LuaNumber.int 1).lt n
  | _ => false

section

variable (tostring : Lua → String)

def showNumber (n : LuaNumber) : String := tostring (.num n)

/-- **Build the room.** -/
def room (port : Port) (opts : RoomOpts) : Except Lua Room := do
  check (opts.conf.isNil || opts.conf.isTable) "policy.room: conf must be a table when given"
  check (opts.reserve.isNil || (wholeAtLeast opts.reserve 0).isSome)
    ("policy.room: reserve must be a whole number >= 0 (tokens), got " ++ tostring opts.reserve)
  check (isShare opts.resultShare)
    ("policy.room: result_share must be a number in (0, 1], got " ++ tostring opts.resultShare)
  check (isShare opts.beatShare)
    ("policy.room: beat_share must be a number in (0, 1], got " ++ tostring opts.beatShare)
  check (opts.callReserve.isNil || (wholeAtLeast opts.callReserve 0).isSome)
    ("policy.room: call_reserve must be a whole number >= 0 (tokens kept out of the reasoning), got " ++
      tostring opts.callReserve)
  -- one result alone must fit an empty beat, so the shares are compared as they are used
  let resultShare := numberOr opts.resultShare DEFAULT_RESULT_SHARE
  let beatShare := numberOr opts.beatShare DEFAULT_BEAT_SHARE
  check (!beatShare.lt resultShare)
    ("policy.room: beat_share (" ++ showNumber tostring beatShare ++ ") is under result_share (" ++
      showNumber tostring resultShare ++
      ") — one result under its own limit would not fit an empty beat")
  let profile ← port.profile opts.conf
  let (window, output) ← profileSplit tostring profile "policy.room"
  let (limit, held) ← requestLimit tostring profile "policy.room" (numberOr opts.reserve (.int 0))
  .ok {
    port
    conf := opts.conf
    profile
    window
    maxOutput := output
    limit := limit.floor
    held := held.floor
    reserve := (numberOr opts.reserve (.int 0)).floor
    resultShare
    resultLimit := (limit.mul resultShare).floor
    beatShare
    beatBudget := (limit.mul beatShare).floor
    callReserve := wholeAtLeast opts.callReserve 0 }

/-- What a division is read out as. -/
structure Split where
  window : LuaNumber
  maxOutput : LuaNumber
  limit : LuaNumber
  held : LuaNumber
  room : Option LuaNumber

namespace Room

variable (r : Room)

/-- `room:reply(used)`. -/
def reply (used : LuaNumber) : Except Lua LuaNumber :=
  replyRoom tostring r.profile "room:reply" used

/-- `room:split(used)`. -/
def split (used : Lua) : Except Lua Split := do
  check (used.isNil || (wholeAtLeast used 0).isSome)
    ("room:split: used must be a whole number >= 0 (tokens), got " ++ tostring used)
  let out : Split := {
    window := r.window
    maxOutput := r.maxOutput
    limit := r.limit
    held := r.held
    room := none }
  match used with
  | .num n => do
      let room ← replyRoom tostring r.profile "room:split" n
      .ok { out with room := some room }
  | _ => .ok out

/-- The stop point that leaves `callReserve` of a reply, under the caller's own
ceiling; one below 1 is none. -/
def stopPoint (callReserve : LuaNumber) (budget : Option LuaNumber) (reply : LuaNumber) :
    Option LuaNumber :=
  let stop := (reply.sub callReserve).floor
  let stop := match budget with
    | some budget => if budget.lt stop then budget else stop
    | none => stop
  if stop.lt (.int 1) then none else some stop

/-- `room:thinking_stop(used, budget)`. -/
def thinkingStop (used : LuaNumber) (budget : Option LuaNumber) : Except Lua (Option LuaNumber) :=
  match r.callReserve with
  | none => .error (.str "room:thinking_stop: this room was built without call_reserve")
  | some callReserve => do
      let reply ← r.reply tostring used
      .ok (stopPoint callReserve budget reply)

/-- `room:count(request)`. -/
def count (request : Lua) : Except Lua LuaNumber :=
  countWith tostring r.port r.conf request "room:count"

/-- `room:count_text(text)`: the text as the one message of a request. -/
def countText (text : String) : Except Lua LuaNumber :=
  countWith tostring r.port r.conf
    (Lua.record [("messages", Lua.array [Lua.record [("role", .str "user"),
      ("content", .str text)]])]) "room:count_text"

end Room

/-- What follows the first place a text stands at. -/
def afterFirst (pattern : List Char) : List Char → Option (List Char)
  | [] => none
  | c :: rest =>
      if pattern.isPrefixOf (c :: rest) then some ((c :: rest).drop pattern.length)
      else afterFirst pattern rest

/-- The room's raise, under the name of the split. -/
def asSplit (raised : Lua) : Lua :=
  let text := match raised with
    | .str s => s
    | v => tostring v
  match afterFirst "policy.room: ".toList text.toList with
  | some rest => .str ("policy.split: " ++ String.ofList rest)
  | none => .str text

/-- **`policy.split`**: the division, read off a room built on the spot. -/
def split (port : Port) (opts : RoomOpts) (used : Lua) : Except Lua Split := do
  check (opts.conf.isNil || opts.conf.isTable) "policy.split: conf must be a table when given"
  check (opts.reserve.isNil || (wholeAtLeast opts.reserve 0).isSome)
    ("policy.split: reserve must be a whole number >= 0 (tokens), got " ++ tostring opts.reserve)
  check (used.isNil || (wholeAtLeast used 0).isSome)
    ("policy.split: used must be a whole number >= 0 (tokens), got " ++ tostring used)
  match room tostring port
      { conf := opts.conf, reserve := opts.reserve,
        representable := fun n hn => opts.representable n (by simp_all) } with
  | .ok r => r.split tostring used
  | .error raised => .error (asSplit tostring raised)

end

end AgentBlock.Policy
