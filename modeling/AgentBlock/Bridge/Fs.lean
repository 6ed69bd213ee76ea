/-
AgentBlock/Bridge/Fs.lean

`std.fs.edit` and `std.fs.rollback`, on one path of one host.

A call is a machine of its own: an edit reads the file, checks its edits
against what it read, writes, and then remembers what the file was; a rollback
takes what was remembered and writes it.  Other calls may come in between any
two of these.  A text is the list of its characters; the fingerprint of a text
is the parameter `versionOf`.
-/
import AgentBlock.Lib.Steps
import Mathlib.Data.List.Sort
import Mathlib.Logic.Function.Basic

namespace AgentBlock.Bridge.Fs

abbrev Text := List Char

/-! ### Editing a text -/

/-- The lines of a text, and whether it ended with a newline. -/
def splitLines (content : Text) : List Text × Bool :=
  let trailingNewline := content.getLast? = some '\n'
  let body := if trailingNewline then content.dropLast else content
  if body = [] ∧ trailingNewline then ([[]], true)
  else (body.splitOn '\n', trailingNewline)

def joinLines (lines : List Text) (trailingNewline : Bool) : Text :=
  List.intercalate ['\n'] lines ++ if trailingNewline then ['\n'] else []

/-- One requested edit: the lines it names, the text it expects there and what
to put in their place. -/
structure EditRequest where
  startLine : Nat
  endLine : Nat
  expect : Text
  replace : Text
  deriving DecidableEq

/-- The options of an edit.  Its edits are not there when the table of them
cannot be read. -/
structure EditOpts where
  base : Option Text
  edits : Option (List EditRequest)
  deriving DecidableEq

inductive Reason where
  | badRange
  | outOfRange
  | expectMismatch
  deriving DecidableEq

structure EditFailure where
  index : Nat
  reason : Reason
  startLine : Nat
  endLine : Nat
  actual : Option Text
  fileLines : Option Nat
  deriving DecidableEq

/-- What a call answers. -/
inductive Reply where
  | ok (applied : Nat) (version : Text)
  | staleBase (expected actual : Text)
  | rejected (first : EditFailure) (failures : List EditFailure)
  | noEdits
  | overlapping (index other : Nat)
  | restored (version : Text)
  | noSnapshot
  | raised
  deriving DecidableEq

def Reply.isOk : Reply → Bool
  | ok _ _ | restored _ => true
  | _ => false

/-- The text at the lines from `startLine` to `endLine`. -/
def linesAt (lines : List Text) (startLine endLine : Nat) : Text :=
  List.intercalate ['\n'] ((lines.take endLine).drop (startLine - 1))

/-- What is wrong with one edit, if anything is. -/
def checkEdit (lines : List Text) (index : Nat) (e : EditRequest) : Option EditFailure :=
  if e.startLine = 0 ∨ e.endLine < e.startLine then
    some ⟨index, .badRange, e.startLine, e.endLine, none, none⟩
  else if e.endLine > lines.length then
    some ⟨index, .outOfRange, e.startLine, e.endLine, none, some lines.length⟩
  else
    let actual := linesAt lines e.startLine e.endLine
    if actual ≠ e.expect then
      some ⟨index, .expectMismatch, e.startLine, e.endLine, some actual, none⟩
    else none

/-- The first two neighbours that share a line. -/
def findOverlap : List (Nat × EditRequest) → Option (Nat × Nat)
  | e :: e' :: rest =>
      if e.2.endLine ≥ e'.2.startLine then some (e.1, e'.1) else findOverlap (e' :: rest)
  | _ => none

/-- Put the replacement of an edit where its lines are. -/
def splice (lines : List Text) (e : EditRequest) : List Text :=
  lines.take (e.startLine - 1) ++ (if e.replace = [] then [] else e.replace.splitOn '\n') ++
    lines.drop e.endLine

variable (versionOf : Text → Text)

/-- The checks of an edit on what it read: what it is to write, and how many
edits that are, or what it answers instead. -/
def plan (opts : EditOpts) (content : Text) : Except Reply (Text × Nat) :=
  let currentVersion := versionOf content
  let stale := opts.base.filter fun base => base ≠ [] ∧ base ≠ currentVersion
  match stale, opts.edits with
  | some base, _ => .error (.staleBase base currentVersion)
  | none, none => .error .raised
  | none, some requests =>
      let (lines, trailingNewline) := splitLines content
      let numbered := requests.zipIdx.map fun r => (r.2 + 1, r.1)
      let failures := numbered.filterMap fun r => checkEdit lines r.1 r.2
      match failures with
      | first :: _ => .error (.rejected first failures)
      | [] =>
          if requests = [] then .error .noEdits
          else
            let ordered := numbered.insertionSort fun a b => a.2.startLine ≤ b.2.startLine
            match findOverlap ordered with
            | some (index, other) => .error (.overlapping index other)
            | none =>
                -- the last edit first, so that earlier line numbers stay right
                let out := ordered.foldr (fun e lines => splice lines e.2) lines
                .ok (joinLines out trailingNewline, requests.length)

/-! ### Calls -/

inductive Op where
  | edit (opts : EditOpts)
  | rollback
  deriving DecidableEq

/-- Where a call is.  `previous` remembers what the file was when it was
written. -/
inductive Phase where
  | start
  | read (content : Text)
  | checked (content new : Text) (applied : Nat)
  | wrote (content new : Text) (applied : Nat) (previous : Option Text)
  | took (content : Text)
  | done (reply : Reply)
  deriving DecidableEq

/-- A call; `touched` remembers whether a step of it changed the file or the
snapshot. -/
structure Call where
  op : Op
  phase : Phase
  touched : Bool
  deriving DecidableEq

/-- An acknowledged call: what the file was when it was written, and what it
was then. -/
structure Entry where
  call : Nat
  op : Op
  before : Option Text
  after : Text
  deriving DecidableEq

/-- One path: the file, when it can be read; what was remembered of it; the
calls by their numbers; and the acknowledged ones in order. -/
structure World where
  file : Option Text
  snapshot : Option Text
  calls : Nat → Option Call
  log : List Entry

def World.init (file : Option Text) : World := ⟨file, none, fun _ => none, []⟩

/-- What the system answers a write. -/
inductive Written where
  | ok
  | failed (left : Option Text)
  deriving DecidableEq

inductive Act where
  | call (i : Nat) (op : Op)
  | read (i : Nat) (ok : Bool)
  | check (i : Nat)
  | write (i : Nat) (written : Written)
  | remember (i : Nat)
  | take (i : Nat)
  deriving DecidableEq

/-- Move a call on. -/
def World.move (w : World) (i : Nat) (c : Call) (phase : Phase) (touched : Bool) : World :=
  { w with calls := Function.update w.calls i (some ⟨c.op, phase, c.touched || touched⟩) }

/-- One step, where it can be taken. -/
def step (w : World) : Act → Option World
  | .call i op =>
      if w.calls i = none then
        some { w with calls := Function.update w.calls i (some ⟨op, .start, false⟩) }
      else none
  | .read i ok =>
      match w.calls i with
      | some c@⟨.edit _, .start, _⟩ =>
          match w.file, ok with
          | some content, true => some (w.move i c (.read content) false)
          | _, _ => some (w.move i c (.done .raised) false)
      | _ => none
  | .check i =>
      match w.calls i with
      | some c@⟨.edit opts, .read content, _⟩ =>
          match plan versionOf opts content with
          | .ok (new, applied) => some (w.move i c (.checked content new applied) false)
          | .error reply => some (w.move i c (.done reply) false)
      | _ => none
  | .write i written =>
      match w.calls i, written with
      | some c@⟨_, .checked content new applied, _⟩, .ok =>
          some { w.move i c (.wrote content new applied w.file) (w.file ≠ some new) with
            file := some new }
      -- a write that fails may have truncated the file, or left it as it was
      | some c@⟨_, .checked _ _ _, _⟩, .failed left =>
          some { w.move i c (.done .raised) (w.file ≠ left) with file := left }
      | some c@⟨_, .took content, _⟩, .ok =>
          some { w.move i c (.done (.restored (versionOf content))) (w.file ≠ some content) with
            file := some content
            log := w.log ++ [⟨i, c.op, w.file, content⟩] }
      -- the snapshot was taken out before, and is lost with the write
      | some c@⟨_, .took _, _⟩, .failed left =>
          some { w.move i c (.done .raised) (w.file ≠ left) with file := left }
      | _, _ => none
  | .remember i =>
      match w.calls i with
      | some c@⟨_, .wrote content new applied previous, _⟩ =>
          some { w.move i c (.done (.ok applied (versionOf new))) (w.snapshot ≠ some content) with
            snapshot := some content
            log := w.log ++ [⟨i, c.op, previous, new⟩] }
      | _ => none
  | .take i =>
      match w.calls i with
      | some c@⟨.rollback, .start, _⟩ =>
          match w.snapshot with
          | some content => some { w.move i c (.took content) true with snapshot := none }
          | none => some (w.move i c (.done .noSnapshot) false)
      | _ => none

end AgentBlock.Bridge.Fs
