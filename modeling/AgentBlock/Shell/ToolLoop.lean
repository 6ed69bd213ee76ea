/-
AgentBlock/Shell/ToolLoop.lean

The tools of a beat, over the log they are recorded in.

Here the log is kept, so that a handler may read it: the call is recorded, the
handler runs, and its result is recorded after it.  What is stored is JSON, and
what is read back is what a JSON value is in Lua.  Whether the session takes an
event, the handlers and what they act on (`W`) are parameters.

Each handler that ran is remembered with the log it found (`HandlerRun`).
-/
import AgentBlock.Bridge.JsonTrip
import AgentBlock.Shell.Beat

namespace AgentBlock.Shell

open Bridge
open Except (bind_eq_ok map_eq_ok)

/-! ### Logs -/

/-- An event, its payload a JSON value where it is stored and a Lua value where
it is written or read. -/
inductive LogEvent (V : Type) where
  | toolCall (beat : Option String) (callId name : String) (args : V)
  | toolResult (beat : Option String) (callId : String) (ok : Bool) (result : V)
  | other (kind : String) (beat : Option String) (data : V)

/-- Convert the payload, which stands two levels down in its event, or one where
it is the whole of its data. -/
def LogEvent.convert {V V' : Type} (f : ℕ → V → Except String V') :
    LogEvent V → Except String (LogEvent V')
  | .toolCall beat callId name args => (f 2 args).map (.toolCall beat callId name)
  | .toolResult beat callId ok result => (f 2 result).map (.toolResult beat callId ok)
  | .other kind beat data => (f 1 data).map (.other kind beat)

/-- An event as it is stored. -/
def LogEvent.stored (ev : LogEvent LuaVal) : Except String (LogEvent Json) := ev.convert toJson

abbrev Log := List (LogEvent Json)

/-- The most rows a read answers. -/
def DEFAULT_LIMIT : ℕ := 1000

section

variable (order : List (LuaKey × LuaVal) → List (LuaKey × LuaVal))

/-- The rows of a log, each one level down in the array they are answered in. -/
def rows : Log → Except String (List (LogEvent LuaVal))
  | [] => .ok []
  | ev :: log => do
      let row ← ev.convert fun depth => toLuaVal order (depth + 1)
      let rest ← rows log
      .ok (row :: rest)

/-- `session:events()`: the rows, and whether there were more. -/
def events (log : Log) : Except LuaVal (List (LogEvent LuaVal) × Bool) :=
  match rows order (log.take DEFAULT_LIMIT) with
  | .ok evs => .ok (evs, DEFAULT_LIMIT < log.length)
  | .error text => .error (.str text)

/-- The whole log of a session, or a raise where one read does not hold it. -/
def wholeRows (log : Log) (who : String) : Except LuaVal (List (LogEvent LuaVal)) := do
  let (evs, truncated) ← events order log
  if truncated then
    .error (.str (who ++ ": the session's log is longer than one read of it — the kernel's row " ++
      "cap stopped at " ++ toString evs.length ++ " events, so the newest beats are not in what " ++
      "came back and this policy would be judging a run that has already moved on; window the " ++
      "request (policy.window), or start a new session"))
  else .ok evs

end

/-! ### The loop -/

/-- What a JSON value is in Lua. -/
def IsDecoded (v : LuaVal) : Prop :=
  ∃ (order : List (LuaKey × LuaVal) → List (LuaKey × LuaVal)) (depth : ℕ) (j : Json),
    (∀ fields, (order fields).Perm fields) ∧ WellFormed j ∧ toLuaVal order depth j = .ok v

/-- A `tool_use` block: the id a provider or the parse gave it, its tool, and its
input, which was decoded from JSON. -/
structure ToolUse where
  id : String
  name : String
  args : LuaVal
  decoded : IsDecoded args

/-- A handler answers or raises, and moves what it acts on. -/
abbrev Handler (W : Type) := LuaVal → Log → W → Except LuaVal LuaVal × W

/-- A handler that ran: what it was handed, what it found, and how it left. -/
structure HandlerRun (W : Type) where
  use : ToolUse
  log : Log
  world : W
  answer : Except LuaVal LuaVal
  after : W

/-- Where the loop is, and the handlers it has run so far. -/
structure Loop (W : Type) where
  log : Log
  world : W
  handled : List (HandlerRun W)

/-- How a call came to an end. -/
structure ToolSummary where
  callId : String
  name : String
  ok : Bool

/-- A tool that answered nothing answered the empty string. -/
def orEmpty : LuaVal → LuaVal
  | .nil => .str ""
  | v => v

section

variable {W : Type} (broken : Log → Option LuaVal) (tostring : LuaVal → String)
  (tools : String → Option (Handler W))

/-- Append an event; what the session raises instead is the caller's. -/
def Loop.record (s : Loop W) (ev : LogEvent LuaVal) : Except LuaVal (Loop W) :=
  match broken s.log with
  | some raised => .error raised
  | none =>
      match ev.stored with
      | .ok stored => .ok { s with log := s.log ++ [stored] }
      | .error text => .error (.str text)

/-- What a planned block comes to: whether it went well, and its result. -/
def Loop.dispatch (s : Loop W) (use : ToolUse) : Decision → Loop W × Bool × LuaVal
  | .deny reason =>
      (s, false, .str ("tool '" ++ use.name ++ "' denied by policy" ++
        reason.elim "" fun why => ": " ++ why))
  | .run =>
      match tools use.name with
      | none => (s, false, .str ("tool '" ++ use.name ++ "' not found"))
      | some handler =>
          let (answer, after) := handler use.args s.log s.world
          let s' : Loop W :=
            ⟨s.log, after, s.handled ++ [⟨use, s.log, s.world, answer, after⟩]⟩
          match answer with
          | .ok result => (s', true, result)
          | .error raised =>
              (s', false, .str ("tool '" ++ use.name ++ "' raised: " ++ tostring raised))

/-- Run the planned blocks, each pair recorded around its call. -/
def Loop.runPlanned (beat : String) :
    List (ToolUse × Decision) → Loop W → Loop W × Except LuaVal (List ToolSummary)
  | [], s => (s, .ok [])
  | (use, decision) :: rest, s =>
      match s.record broken (.toolCall (some beat) use.id use.name use.args) with
      | .error raised => (s, .error raised)
      | .ok called =>
          let (ran, ok, result) := called.dispatch tostring tools use decision
          -- the handler has run by now, whether or not its result can be recorded
          match ran.record broken (.toolResult (some beat) use.id ok (orEmpty result)) with
          | .error raised => (ran, .error raised)
          | .ok recorded =>
              let (s', summary) := recorded.runPlanned beat rest
              (s', summary.map (⟨use.id, use.name, ok⟩ :: ·))

/-- What a session's handle does: a beat runs its tools, or another event is
appended. -/
inductive HandleAct where
  | tools (beat : String) (planned : List (ToolUse × Decision))
  | note (kind : String) (beat : Option String) (data : LuaVal)

def Loop.act (s : Loop W) : HandleAct → Loop W
  | .tools beat planned => (s.runPlanned broken tostring tools beat planned).1
  | .note kind beat data =>
      match s.record broken (.other kind beat data) with
      | .ok s' => s'
      | .error _ => s

/-- One after another; a beat that raised is over. -/
def Loop.run (acts : List HandleAct) (s : Loop W) : Loop W :=
  acts.foldl (Loop.act broken tostring tools) s

end

/-! ### What is recorded -/

section

variable {W : Type} {broken : Log → Option LuaVal} {tostring : LuaVal → String}
  {tools : String → Option (Handler W)} {s s' : Loop W}

theorem record_eq_ok {ev : LogEvent LuaVal} : s.record broken ev = .ok s' ↔
    broken s.log = none ∧ ∃ stored, ev.stored = .ok stored ∧
      s' = { s with log := s.log ++ [stored] } := by
  rw [Loop.record]
  cases broken s.log with
  | some raised => exact iff_of_false nofun fun h => absurd h.1 nofun
  | none =>
      cases ev.stored with
      | error text => exact iff_of_false nofun fun ⟨_, _, h, _⟩ => absurd h nofun
      | ok stored =>
          constructor
          · rintro h
            exact ⟨rfl, stored, rfl, (Except.ok.inj h).symm⟩
          · rintro ⟨-, stored', h, rfl⟩
            cases h
            rfl

/-- What this loop writes: the arguments of a call are a JSON value's, and no
payload is one that could not be stored. -/
def Written : LogEvent Json → Prop
  | .toolCall _ _ _ j => ∃ args, IsDecoded args ∧ toJson 2 args = .ok j
  | .toolResult _ _ _ j => ∃ result, toJson 2 result = .ok j
  | .other _ _ j => ∃ data, toJson 1 data = .ok j

/-- A handler that ran found its own call last in the log, and was that of the
call's tool. -/
structure HandlerRun.Answers (tools : String → Option (Handler W)) (a : HandlerRun W) : Prop where
  written : ∀ ev ∈ a.log, Written ev
  called : ∃ before beat j, a.log = before ++ [.toolCall (some beat) a.use.id a.use.name j] ∧
    toJson 2 a.use.args = .ok j
  ran : ∃ handler, tools a.use.name = some handler ∧
    handler a.use.args a.log a.world = (a.answer, a.after)

/-- What holds of the loop all along. -/
structure Loop.Sound (tools : String → Option (Handler W)) (s : Loop W) : Prop where
  written : ∀ ev ∈ s.log, Written ev
  handled : ∀ a ∈ s.handled, a.Answers tools

theorem Loop.Sound.record {ev : LogEvent LuaVal} (h : s.Sound tools)
    (hrecord : s.record broken ev = .ok s')
    (hev : ∀ stored, ev.stored = .ok stored → Written stored) : s'.Sound tools := by
  obtain ⟨-, stored, hstored, rfl⟩ := record_eq_ok.mp hrecord
  refine ⟨fun ev' hev' => ?_, h.handled⟩
  rcases List.mem_append.mp hev' with hev' | hev'
  · exact h.written ev' hev'
  · obtain rfl := List.mem_singleton.mp hev'
    exact hev _ hstored

theorem written_toolCall {beat : Option String} {use : ToolUse} {stored : LogEvent Json}
    (h : (LogEvent.toolCall beat use.id use.name use.args).stored = .ok stored) :
    ∃ j, toJson 2 use.args = .ok j ∧ stored = .toolCall beat use.id use.name j ∧
      Written stored := by
  obtain ⟨j, hj, rfl⟩ := map_eq_ok.mp h
  exact ⟨j, hj, rfl, use.args, use.decoded, hj⟩

theorem written_toolResult {beat : Option String} {callId : String} {ok : Bool} {result : LuaVal}
    {stored : LogEvent Json} (h : (LogEvent.toolResult beat callId ok result).stored = .ok stored) :
    ∃ j, toJson 2 result = .ok j ∧ stored = .toolResult beat callId ok j ∧ Written stored := by
  obtain ⟨j, hj, rfl⟩ := map_eq_ok.mp h
  exact ⟨j, hj, rfl, result, hj⟩

/-- A dispatch leaves the log, and asks at most the one handler. -/
theorem dispatch_cases (s : Loop W) (use : ToolUse) (decision : Decision) :
    (∃ text, s.dispatch tostring tools use decision = (s, false, .str text)) ∨
      ∃ handler answer after ok result, decision = .run ∧ tools use.name = some handler ∧
        handler use.args s.log s.world = (answer, after) ∧
        s.dispatch tostring tools use decision =
          (⟨s.log, after, s.handled ++ [⟨use, s.log, s.world, answer, after⟩]⟩, ok, result) ∧
        ((answer = .ok result ∧ ok = true) ∨ ∃ raised text, answer = .error raised ∧
          ok = false ∧ result = .str text) := by
  cases decision with
  | deny reason => exact .inl ⟨_, rfl⟩
  | run =>
      rw [Loop.dispatch]
      cases htool : tools use.name with
      | none => exact .inl ⟨_, rfl⟩
      | some handler =>
          refine .inr ⟨handler, ?_⟩
          rcases hran : handler use.args s.log s.world with ⟨answer, after⟩
          cases answer with
          | ok result =>
              exact ⟨_, after, true, result, rfl, rfl, rfl, by simp only [hran], .inl ⟨rfl, rfl⟩⟩
          | error raised =>
              exact ⟨_, after, false,
                .str ("tool '" ++ use.name ++ "' raised: " ++ tostring raised), rfl, rfl, rfl,
                by simp only [hran], .inr ⟨raised, _, rfl, rfl, rfl⟩⟩

theorem Loop.Sound.runPlanned {beat : String} (planned : List (ToolUse × Decision))
    (h : s.Sound tools) : (s.runPlanned broken tostring tools beat planned).1.Sound tools := by
  induction planned generalizing s with
  | nil => exact h
  | cons item rest ih =>
      obtain ⟨use, decision⟩ := item
      rw [Loop.runPlanned]
      cases hcall : s.record broken (.toolCall (some beat) use.id use.name use.args) with
      | error raised => exact h
      | ok called =>
          have hcalled := h.record hcall fun stored hs => (written_toolCall hs).choose_spec.2.2
          have hran : (called.dispatch tostring tools use decision).1.Sound tools := by
            rcases dispatch_cases called use decision with ⟨text, hd⟩ |
              ⟨handler, answer, after, ok, result, -, htool, hans, hd, -⟩
            · rw [hd]
              exact hcalled
            · rw [hd]
              refine ⟨hcalled.written, fun a ha => ?_⟩
              rcases List.mem_append.mp ha with ha | ha
              · exact hcalled.handled a ha
              · -- the handler that ran just now
                obtain rfl := List.mem_singleton.mp ha
                obtain ⟨-, stored, hstored, rfl⟩ := record_eq_ok.mp hcall
                obtain ⟨j, hj, rfl, -⟩ := written_toolCall hstored
                exact ⟨hcalled.written, ⟨s.log, beat, j, rfl, hj⟩, handler, htool, hans⟩
          simp only
          cases hresult : (called.dispatch tostring tools use decision).1.record broken
              (.toolResult (some beat) use.id (called.dispatch tostring tools use decision).2.1
                (orEmpty (called.dispatch tostring tools use decision).2.2)) with
          | error raised => exact hran
          | ok recorded =>
              exact ih (hran.record hresult fun stored hs =>
                (written_toolResult hs).choose_spec.2.2)

theorem Loop.Sound.act (h : s.Sound tools) (t : HandleAct) :
    (s.act broken tostring tools t).Sound tools := by
  cases t with
  | tools beat planned => exact h.runPlanned planned
  | note kind beat data =>
      rw [Loop.act]
      cases hrecord : s.record broken (.other kind beat data) with
      | error raised => exact h
      | ok s' =>
          refine h.record hrecord fun stored hs => ?_
          obtain ⟨j, hj, rfl⟩ := map_eq_ok.mp hs
          exact ⟨data, hj⟩

/-- **Every handler that was ever run found its own call last.** -/
theorem Loop.Sound.run (acts : List HandleAct) (h : s.Sound tools) :
    (s.run broken tostring tools acts).Sound tools := by
  induction acts generalizing s with
  | nil => exact h
  | cons act acts ih => exact ih (h.act act)

theorem Loop.sound_empty (w : W) : (⟨[], w, []⟩ : Loop W).Sound tools :=
  ⟨fun _ h => absurd h List.not_mem_nil, fun _ h => absurd h List.not_mem_nil⟩

end

/-! ### What is read -/

/-- How deep a payload stands with all there is below it, when it is read. -/
def depthRead : LogEvent Json → ℕ
  | .toolCall _ _ _ args => 3 + nesting args
  | .toolResult _ _ _ result => 3 + nesting result
  | .other _ _ data => 2 + nesting data

section

variable {order : List (LuaKey × LuaVal) → List (LuaKey × LuaVal)}

/-- A stored event, and how it is read. -/
def Reads (order : List (LuaKey × LuaVal) → List (LuaKey × LuaVal)) (ev : LogEvent Json)
    (row : LogEvent LuaVal) : Prop :=
  ev.convert (fun depth => toLuaVal order (depth + 1)) = .ok row

theorem rows_eq {log : Log} (h : ∀ ev ∈ log, depthRead ev ≤ maxDepth) :
    ∃ evs, rows order log = .ok evs ∧ List.Forall₂ (Reads order) log evs := by
  induction log with
  | nil => exact ⟨[], rfl, .nil⟩
  | cons ev log ih =>
      obtain ⟨rest, hrest, heach⟩ := ih fun ev' hev' => h ev' (List.mem_cons_of_mem _ hev')
      obtain ⟨row, hrow⟩ : ∃ row, Reads order ev row := by
        have hdepth := h ev List.mem_cons_self
        cases ev with
        | toolCall beat callId name args =>
            obtain ⟨v, hv⟩ := toLuaVal_shallow 3 args hdepth
            exact ⟨.toolCall beat callId name v, map_eq_ok.mpr ⟨v, hv, rfl⟩⟩
        | toolResult beat callId ok result =>
            obtain ⟨v, hv⟩ := toLuaVal_shallow 3 result hdepth
            exact ⟨.toolResult beat callId ok v, map_eq_ok.mpr ⟨v, hv, rfl⟩⟩
        | other kind beat data =>
            obtain ⟨v, hv⟩ := toLuaVal_shallow 2 data hdepth
            exact ⟨.other kind beat v, map_eq_ok.mpr ⟨v, hv, rfl⟩⟩
      refine ⟨row :: rest, ?_, .cons hrow heach⟩
      rw [rows, hrow, hrest]
      rfl

/-- A log that can be read is, whole. -/
theorem wholeRows_eq {log : Log} (who : String) (hlength : log.length ≤ DEFAULT_LIMIT)
    (hdepth : ∀ ev ∈ log, depthRead ev ≤ maxDepth) :
    ∃ evs, wholeRows order log who = .ok evs ∧ List.Forall₂ (Reads order) log evs := by
  obtain ⟨evs, hevs, heach⟩ := rows_eq hdepth
  refine ⟨evs, ?_, heach⟩
  have hwhole : decide (DEFAULT_LIMIT < log.length) = false :=
    decide_eq_false (Nat.not_lt.mpr hlength)
  rw [wholeRows, events, List.take_of_length_le hlength, hevs, hwhole]
  rfl

end

end AgentBlock.Shell
