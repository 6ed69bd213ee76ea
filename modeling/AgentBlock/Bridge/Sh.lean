/-
AgentBlock/Bridge/Sh.lean

The process groups `sh.exec` started: the registry of the live ones, and the
four that read and write it.

A step is what one thread does between two points at which others may come in:
an `sh.exec` starts its command, sees it end, times out or is dropped; an
`sh.kill` takes a group under the registry's lock, signals it, looks for it
again; a sweep reads the registry, and then signals the groups it read one by
one.  A command may end while a call still awaits its output, which another
process holds open.  What the system decides (which group id a command is given,
whether a group is still there, whether the grace is over) comes with the step.

An id may be given again.  Which call an id was remembered for is therefore
written down beside it wherever the code keeps the id alone (`call`).
-/
import AgentBlock.Lib.Steps
import Mathlib.Data.List.Sort
import Mathlib.Logic.Function.Basic

namespace AgentBlock.Bridge

/-! ### The registry -/

/-- One live group: the name it was started under, and whether `sh.kill` has
ended it. -/
structure Group where
  label : Option String
  killed : Bool
  call : Nat
  deriving DecidableEq

/-- The live groups, by group id. -/
abbrev Groups := List (Nat × Group)

namespace Groups

def keys (g : Groups) : List Nat := g.map Prod.fst

def remove (g : Groups) (pgid : Nat) : Groups := g.filter fun entry => entry.1 ≠ pgid

def insert (g : Groups) (pgid : Nat) (group : Group) : Groups :=
  (g.remove pgid).orderedInsert (fun a b => a.1 ≤ b.1) (pgid, group)

/-- The first group started under a label. -/
def labelled (g : Groups) (label : String) : Option (Nat × Group) :=
  g.find? fun entry => entry.2.label = some label

def markKilled (g : Groups) (pgid : Nat) : Groups :=
  g.map fun entry =>
    if entry.1 = pgid then (pgid, { entry.2 with killed := true }) else entry

/-- Whether the group of this id has been killed. -/
def wasKilled (g : Groups) (pgid : Nat) : Bool :=
  ((g.find? fun entry => entry.1 = pgid).map fun entry => entry.2.killed).getD false

end Groups

def rememberGroup (g : Groups) (pgid : Nat) (label : Option String) (call : Nat) : Groups :=
  g.insert pgid { label, killed := false, call }

/-- Drop the group and answer whether it had been killed. -/
def forgetGroup (g : Groups) (pgid : Nat) : Bool × Groups :=
  (g.wasKilled pgid, g.remove pgid)

/-- The group started under `label`, marked as killed, if it is still there. -/
def takeLabelled (g : Groups) (label : String) : Option ((Nat × Group) × Groups) :=
  (g.labelled label).map fun entry => (entry, g.markKilled entry.1)

/-! ### Calls -/

inductive Signal where
  | term
  | kill
  deriving DecidableEq

inductive ExecStatus where
  | awaiting
  | answered (killed : Bool)
  | timedOut
  | dropped
  deriving DecidableEq

/-- An `sh.exec`.  Of its group, its id, when the command was given one of its
own; whether the command has ended while its output is awaited; `marked` remembers
that `sh.kill` took the group while the call was awaiting. -/
structure Exec where
  pgid : Option Nat
  label : Option String
  status : ExecStatus
  ended : Bool
  marked : Bool
  deriving DecidableEq

/-- An `sh.kill`. -/
inductive Kill where
  | took (pgid call : Nat)
  | looking (pgid call : Nat)
  | answered (found : Bool)
  deriving DecidableEq

/-- A `term_live_groups` or a `kill_live_groups`, and the groups it has still to
signal. -/
structure Sweep where
  signal : Signal
  forget : Bool
  todo : List (Nat × Nat)

/-- The registry and the calls, by their numbers; and whether a
`kill_live_groups` has begun to empty the registry. -/
structure Sh where
  groups : Groups
  execs : Nat → Option Exec
  kills : Nat → Option Kill
  sweeps : Nat → Option Sweep
  emptied : Bool

def Sh.init : Sh := ⟨[], fun _ => none, fun _ => none, fun _ => none, false⟩

/-- What happens next. -/
inductive Act where
  | start (i : Nat) (pgid : Option Nat) (label : Option String)
  /-- The command ends, its output does not. -/
  | exit (i : Nat)
  | finish (i : Nat)
  | timeout (i : Nat)
  | drop (i : Nat)
  | take (k : Nat) (label : String)
  | term (k : Nat) (graceOver : Bool)
  | probe (k : Nat) (alive graceOver : Bool)
  | sweep (w : Nat) (forget : Bool)
  | signalNext (w : Nat)

/-- The call `i` awaits its command. -/
def Sh.exec? (s : Sh) (i : Nat) : Option Exec :=
  (s.execs i).filter fun e => e.status = .awaiting

/-- An awaiting call has the group `pgid`. -/
def Sh.Awaited (s : Sh) (pgid : Nat) : Prop :=
  ∃ i e, s.exec? i = some e ∧ e.pgid = some pgid

/-- End a call: it has no entry any more. -/
def Sh.leave (s : Sh) (i : Nat) (e : Exec) (status : Bool → ExecStatus) : Sh :=
  match e.pgid with
  | some pgid =>
      let (killed, groups) := forgetGroup s.groups pgid
      { s with groups, execs := Function.update s.execs i (some { e with status := status killed }) }
  | none => { s with execs := Function.update s.execs i (some { e with status := status false }) }

/-- The call that a group was remembered for knows that it was taken. -/
def Sh.markExecs (s : Sh) (call : Nat) : Nat → Option Exec := fun i =>
  (s.execs i).map fun e =>
    if e.status = .awaiting ∧ i = call then { e with marked := true } else e

/-- One step, where it can be taken.  A call that times out or is dropped kills its
command as it goes. -/
def step (s : Sh) : Act → Option Sh
  | .start i pgid label =>
      if s.execs i = none then
        let e : Exec := { pgid, label, status := .awaiting, ended := false, marked := false }
        some { s with
          groups := match pgid with
            | some p => rememberGroup s.groups p label i
            | none => s.groups
          execs := Function.update s.execs i (some e) }
      else none
  | .exit i => (s.exec? i).map fun e =>
      { s with execs := Function.update s.execs i (some { e with ended := true }) }
  | .finish i => (s.exec? i).map fun e => s.leave i e .answered
  | .timeout i => (s.exec? i).map fun e => s.leave i e fun _ => .timedOut
  -- dropped at the await: what stands behind it, the removal included, never runs
  | .drop i => (s.exec? i).map fun e =>
      { s with execs := Function.update s.execs i (some { e with status := .dropped }) }
  | .take k label =>
      if s.kills k = none then
        match takeLabelled s.groups label with
        | some ((pgid, group), groups) =>
            some { s with
              groups
              execs := s.markExecs group.call
              kills := Function.update s.kills k (some (.took pgid group.call)) }
        | none => some { s with kills := Function.update s.kills k (some (.answered false)) }
      else none
  | .term k graceOver =>
      match s.kills k with
      | some (.took pgid call) =>
          some { s with
            kills := Function.update s.kills k
              (some (if graceOver then .answered true else .looking pgid call)) }
      | _ => none
  | .probe k alive graceOver =>
      match s.kills k with
      | some (.looking pgid call) =>
          some { s with
            kills := Function.update s.kills k
              (some (if alive && !graceOver then .looking pgid call else .answered true)) }
      | _ => none
  | .sweep w forget =>
      if (s.sweeps w).isNone then
        some { s with
          sweeps := Function.update s.sweeps w
            (some { signal := if forget then .kill else .term, forget,
                    todo := s.groups.map fun entry => (entry.1, entry.2.call) }) }
      else none
  -- the registry has been let go of, so what is signalled is what was read from it
  | .signalNext w =>
      match s.sweeps w with
      | some { signal, forget, todo := target :: todo } =>
          some { s with
            groups := if forget then (forgetGroup s.groups target.1).2 else s.groups
            sweeps := Function.update s.sweeps w (some { signal, forget, todo })
            emptied := s.emptied || forget }
      | _ => none

/-- A signal that is sent to a group, and the call it was read for. -/
structure Sent where
  pgid : Nat
  call : Nat
  signal : Signal
  deriving DecidableEq

/-- The signals a step sends. -/
def signals (s : Sh) : Act → List Sent
  | .timeout i => ((s.exec? i).bind Exec.pgid).toList.map fun pgid => ⟨pgid, i, .kill⟩
  | .term k graceOver =>
      match s.kills k with
      | some (.took pgid call) =>
          ⟨pgid, call, .term⟩ :: if graceOver then [⟨pgid, call, .kill⟩] else []
      | _ => []
  | .probe k alive graceOver =>
      match s.kills k with
      | some (.looking pgid call) => if alive && graceOver then [⟨pgid, call, .kill⟩] else []
      | _ => []
  | .signalNext w =>
      match s.sweeps w with
      | some { signal, todo := target :: _, .. } => [⟨target.1, target.2, signal⟩]
      | _ => []
  | _ => []

end AgentBlock.Bridge
