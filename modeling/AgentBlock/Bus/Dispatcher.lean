/-
AgentBlock/Bus/Dispatcher.lean

The event bus: sources send events into a channel, one loop takes them out and
has each handled before the next, and what the handler came to is sent back to
the source.

Handlers are held in two places.  The bus has a table of keys, and the key of a
script's handler only says that the function is in the other state of Lua, where
`bus.on` put it before it asked the bus for the key.

A world is all of this, with what has been observed of it; a step is one thing
that happens.  What a handler does is left open, and so is when anything
happens.
-/
import AgentBlock.Bus.HttpSource
import AgentBlock.Lib.Serial
import Mathlib.Logic.Function.Basic

namespace AgentBlock.Bus

/-! ### Events and results -/

/-- An error, as far as a source sees one. -/
inductive BlockError where
  | bus (text : String)
  | other (text : String)
  deriving DecidableEq

def BlockError.toString : BlockError → String
  | bus text => "bus error: " ++ text
  | other text => text

abbrev AckResult := Except BlockError Json

/-- An event that was sent, with its place among all that were.  It is awaited
when its source kept the receiver of the acknowledgement. -/
structure Posted where
  ticket : ℕ
  kind : String
  id : String
  payload : Json
  metaValue : Json
  awaited : Bool

/-- What a source makes of an acknowledgement. -/
def ackOf : AckResult → Ack
  | .ok value => .answered value
  | .error e => .failed e.toString

/-! ### Handlers -/

/-- A handler: one of the host, or the one that calls into Lua. -/
inductive HandlerKey (H : Type) where
  | host (handler : H)
  | lua
  deriving DecidableEq

/-- The table of the dispatcher. -/
structure EventBus (H : Type) where
  handlers : String → Option (HandlerKey H) := fun _ => none
  any : Option (HandlerKey H) := none

/-- The functions that scripts registered. -/
structure Isle (F : Type) where
  handlers : String → Option F := fun _ => none
  any : Option F := none

/-- Where a handler is registered: for a kind, or for what has none. -/
inductive Slot where
  | on (kind : String)
  | onAny
  deriving DecidableEq

section Tables

variable {H F : Type}

/-- The key of a slot. -/
def EventBus.at (bus : EventBus H) : Slot → Option (HandlerKey H)
  | .on kind => bus.handlers kind
  | .onAny => bus.any

def Isle.at (isle : Isle F) : Slot → Option F
  | .on kind => isle.handlers kind
  | .onAny => isle.any

/-- The last one registered is the one that counts. -/
def EventBus.register (bus : EventBus H) (key : HandlerKey H) : Slot → EventBus H
  | .on kind => { bus with handlers := Function.update bus.handlers kind (some key) }
  | .onAny => { bus with any := some key }

def EventBus.lookup (bus : EventBus H) (kind : String) : Option (HandlerKey H) :=
  (bus.handlers kind).orElse fun _ => bus.any

def Isle.load (isle : Isle F) (f : F) : Slot → Isle F
  | .on kind => { isle with handlers := Function.update isle.handlers kind (some f) }
  | .onAny => { isle with any := some f }

/-- The function `__bus_dispatch` calls. -/
def Isle.lookup (isle : Isle F) (kind : String) : Option F :=
  (isle.handlers kind).orElse fun _ => isle.any

end Tables

/-! ### What a handler comes to -/

/-- What the call into Lua comes to. -/
inductive LuaAnswer where
  | cancelled
  | shutdown
  | failed (error : String)
  | nothing
  | text (s : String)

/-- What the task of a handler comes to. -/
inductive Outcome where
  | returned (result : AckResult)
  | answered (answer : LuaAnswer)
  /-- With the payload, where it is a text. -/
  | panicked (payload : Option String)
  | taskError (text : String)

def LuaAnswer.isError : LuaAnswer → Bool
  | cancelled | shutdown | failed _ => true
  | nothing | text _ => false

section Results

variable (decode : String → Option Json)

/-- A value that is no JSON is given back as the text it is. -/
def LuaAnswer.result : LuaAnswer → AckResult
  | cancelled => .error (.bus "handler cancelled")
  | shutdown => .error (.bus "isle shut down")
  | failed error => .error (.bus ("isle error: " ++ error))
  | nothing => .ok .null
  | text s => .ok ((decode s).getD (.str s))

/-- The result of an event, from what the task of its handler came to. -/
def Outcome.result : Outcome → AckResult
  | returned result => result
  | answered answer => answer.result decode
  | panicked payload =>
      .error (.bus ("handler panic: " ++ payload.getD "<non-string panic payload>"))
  | taskError text => .error (.bus ("handler panic: handler task error: " ++ text))

end Results

def nack (kind : String) : AckResult := .error (.bus ("no handler for kind `" ++ kind ++ "`"))

/-! ### The world -/

/-- Where the loop is. -/
inductive Phase (H F : Type) where
  /-- The bus is still in its mutex. -/
  | parked
  | polling
  /-- The handler of the event taken out has been spawned. -/
  | calling (key : HandlerKey H)
  /-- The dispatcher in Lua has looked for its function. -/
  | inside (f : Option F)
  | exited

/-- What a script asked the bus for. -/
inductive Asked where
  | register (slot : Slot)
  | serve

/-- What the task of a handler can come to there: a value out of Lua only where a
function was found. -/
def Phase.allows {H F : Type} : Phase H F → Outcome → Bool
  | calling _, .panicked _ | calling _, .taskError _ => true
  | inside _, .panicked _ | inside _, .taskError _ => true
  | calling (.host _), .returned _ => true
  | calling .lua, .answered answer | inside none, .answered answer => answer.isError
  | inside (some _), .answered _ => true
  | _, _ => false

structure World (H F : Type) where
  capacity : ℕ
  bus : EventBus H
  phase : Phase H F := .parked
  serving : Bool := false
  cancelled : Bool := false
  hungUp : Bool := false
  isle : Isle F := {}
  /-- The functions that have been loaded, and are not yet registered. -/
  pending : List (Slot × F) := []
  /-- The channel, the event taken out of it and those before it. -/
  server : Serial Posted AckResult := {}
  next : ℕ := 0
  /-- What the channel took, in order. -/
  accepted : List Posted := []
  /-- Which handler each event taken out went to. -/
  dispatched : List (Posted × Option (HandlerKey H)) := []
  /-- Which function the dispatcher in Lua found for an event. -/
  entered : List (Posted × Option F) := []
  /-- What each source heard. -/
  heard : List (ℕ × Ack) := []
  /-- What each request of a script was told, and the function it was about. -/
  told : List (Asked × Except String Unit) := []
  /-- The functions whose registration was granted, the last one first. -/
  granted : List (Slot × F) := []

/-- The host's handlers are there from the start, and a bus that serves by
itself is taken before the script runs. -/
def setupEventBus {H F : Type} (capacity : ℕ) (hostHandlers : List (String × H))
    (hostHandler : Option H) (autoServeBus : Bool) : World H F :=
  let table := hostHandlers.foldl (fun bus h => bus.register (.host h.2) (.on h.1)) {}
  let table := match hostHandler with
    | some handler => table.register (.host handler) .onAny
    | none => table
  let autoServe := autoServeBus && (!hostHandlers.isEmpty || hostHandler.isSome)
  { capacity, bus := table, phase := if autoServe then .polling else .parked }

inductive Act (F : Type) where
  /-- A source sends an event, or is told that it cannot. -/
  | send (kind id : String) (payload metaValue : Json) (awaited : Bool)
  /-- A source has waited for thirty seconds. -/
  | timeOut (ticket : ℕ)
  /-- `bus.on` and `bus.on_any`, up to where the function is in the other state. -/
  | load (slot : Slot) (f : F)
  /-- ... and from there on. -/
  | register (i : ℕ)
  /-- The script that called was stopped between the two. -/
  | abandon (i : ℕ)
  | serve
  | cancel
  /-- The last sender is gone. -/
  | hangUp
  | poll
  /-- The dispatcher in Lua looks for its function. -/
  | enter
  | finish (outcome : Outcome)
  /-- The window after a cancel has passed. -/
  | giveUp

/-- A source hears one thing, and is gone after it. -/
def hear (heard : List (ℕ × Ack)) (ticket : ℕ) (ack : Ack) : List (ℕ × Ack) :=
  if ticket ∈ heard.map Prod.fst then heard else heard ++ [(ticket, ack)]

/-- `deliver_ack`, or the sender of the acknowledgement being dropped. -/
def deliverAck (heard : List (ℕ × Ack)) (e : Posted) (ack : Ack) : List (ℕ × Ack) :=
  if e.awaited then hear heard e.ticket ack else heard

namespace World

variable {H F : Type}

/-- The events whose sender of an acknowledgement is still there. -/
def unsettled (w : World H F) : List Posted := w.server.busy.toList ++ w.server.waiting

/-- The loop ends, and the events that are left are dropped with the bus. -/
def exit (w : World H F) : World H F :=
  { w with
    phase := .exited
    heard := w.unsettled.foldl (fun heard e => deliverAck heard e .dropped) w.heard }

/-- The event taken out is handled, and the loop goes on. -/
def settle (w : World H F) (result : AckResult) : Option (World H F) :=
  match w.server.busy, w.server.finish result with
  | some e, some server => some { w with
      server, phase := .polling, heard := deliverAck w.heard e (ackOf result) }
  | _, _ => none

def isParked (w : World H F) : Bool :=
  match w.phase with
  | .parked => true
  | _ => false

def isExited (w : World H F) : Bool :=
  match w.phase with
  | .exited => true
  | _ => false

/-- The event at the front is taken out and goes to its handler. -/
def dispatch (w : World H F) (e : Posted) (server : Serial Posted AckResult) :
    Option (World H F) :=
  let key := w.bus.lookup e.kind
  let w := { w with server, dispatched := w.dispatched ++ [(e, key)] }
  match key with
  | none => w.settle (nack e.kind)
  | some key => some { w with phase := .calling key }

def poll (w : World H F) : Option (World H F) :=
  match w.phase with
  | .polling =>
      if w.cancelled then some w.exit
      else match w.server.start with
        | some server => server.busy.bind fun e => w.dispatch e server
        | none => if w.hungUp then some w.exit else none
  | _ => none

def takenText : Slot → String
  | .on _ => "bus.on: bus.serve() has already taken ownership; register handlers before calling " ++
      "bus.serve()"
  | .onAny => "bus.on_any: bus.serve() has already taken ownership; register handlers before " ++
      "calling bus.serve()"

def register (w : World H F) (slot : Slot) (f : F) : World H F :=
  if w.isParked then
    { w with
      bus := w.bus.register .lua slot
      told := w.told ++ [(.register slot, .ok ())]
      granted := (slot, f) :: w.granted }
  else { w with told := w.told ++ [(.register slot, .error (takenText slot))] }

def serve (w : World H F) : World H F :=
  if w.serving then { w with told := w.told ++ [(.serve, .error "bus.serve: already running")] }
  else if w.isParked then { w with serving := true, phase := .polling }
  else { w with told := w.told ++ [(.serve, .error "bus.serve: bus already consumed")] }

def send (w : World H F) (kind id : String) (payload metaValue : Json) (awaited : Bool) :
    Option (World H F) :=
  let e : Posted := { ticket := w.next, kind, id, payload, metaValue, awaited }
  if w.hungUp then none
  else if w.isExited then
    some { w with next := w.next + 1, heard := deliverAck w.heard e .closed }
  else if w.server.waiting.length < w.capacity then
    some { w with
      next := w.next + 1, server := w.server.arrive e, accepted := w.accepted ++ [e] }
  else none

variable (decode : String → Option Json)

/-- One step. -/
def step (w : World H F) : Act F → Option (World H F)
  | .send kind id payload metaValue awaited => w.send kind id payload metaValue awaited
  | .timeOut ticket =>
      match w.unsettled.find? fun e => e.awaited && e.ticket == ticket with
      | some e =>
          -- a source that waits on a loop that has ended hears of the drop instead
          if w.isExited then none
          else some { w with heard := hear w.heard e.ticket .timeout }
      | none => none
  | .load slot f =>
      some { w with isle := w.isle.load f slot, pending := w.pending ++ [(slot, f)] }
  | .register i =>
      w.pending[i]?.map fun r => { w with pending := w.pending.eraseIdx i }.register r.1 r.2
  | .abandon i => w.pending[i]?.map fun _ => { w with pending := w.pending.eraseIdx i }
  | .serve => some w.serve
  | .cancel => some { w with cancelled := true }
  | .hangUp => some { w with hungUp := true }
  | .poll => w.poll
  | .enter =>
      match w.phase, w.server.busy with
      | .calling .lua, some e =>
          let f := w.isle.lookup e.kind
          some { w with phase := .inside f, entered := w.entered ++ [(e, f)] }
      | _, _ => none
  | .finish outcome => if w.phase.allows outcome then w.settle (outcome.result decode) else none
  | .giveUp =>
      match w.phase with
      -- a cancelled loop stops at its await, and what waits behind is dropped
      | .calling _ | .inside _ => if w.cancelled then some w.exit else none
      | _ => none

end World

end AgentBlock.Bus
