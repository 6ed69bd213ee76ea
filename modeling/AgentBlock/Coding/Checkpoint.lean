/-
AgentBlock/Coding/Checkpoint.lean

The states of the files, as a coding run records them and as `restore` writes
them back.

A run records the state of its targets between beats: each content that the log
it reads does not hold, and then one record that names the version of every
target.  `restore` finds the state that followed a beat and writes each file of
it, in the order of the paths, at its own path or at the same path under another
directory; a path that has no place there is refused when its turn comes.  The
files are a function of their paths, and a target that cannot be read as a text
is not there.
-/
import AgentBlock.Policy.Checkpoint

namespace AgentBlock.Coding

open Lua (record array)
open Policy
open Shell (isKind dataOf)

/-- The contents of the files that can be read as text. -/
abbrev Disk := String → Option String

/-! ### The targets -/

/-- `path:gsub("/+$", "")`. -/
def trimSlashes (path : String) : String :=
  String.ofList (path.toList.reverse.dropWhile (· = '/')).reverse

/-- What `%s` matches. -/
def isSpace (c : Char) : Bool := c = ' ' || ('\t' ≤ c && c ≤ '\r')

def trimmed (item : String) : String :=
  String.ofList ((item.toList.dropWhile isSpace).reverse.dropWhile isSpace).reverse

/-- The targets as they are named: an array, or one text. -/
inductive Named where
  | array (items : List String)
  | text (s : String)

def Named.raw : Named → List String
  | .array items => items
  | .text s =>
      ((s.toList.splitOnP fun c => c = ',' || c = '\n').filter (· ≠ [])).map String.ofList

/-- One target, at its place under the repo. -/
def targetOf (repo item : String) : Option String :=
  let t := trimmed item
  if t = "" then none
  else if t.toList.head? = some '/' then some t
  else some (repo ++ "/" ++ t)

def targets (named : Named) (repo : String) : Except Lua (List String) :=
  let out := named.raw.filterMap (targetOf (trimSlashes repo))
  if out.isEmpty then .error (.str "coding.targets: no target files") else .ok out

/-! ### Recording -/

/-- The versions that a log holds a content of. -/
def recordedVersions (events : List Lua) : List String :=
  events.filterMap fun ev =>
    if isKind BLOB_KIND ev then ((dataOf ev).get "version").asStr else none

def checkpointBlob (version content : String) : Lua :=
  record [("kind", .str "checkpoint_blob"), ("meta", record [("label", .str "checkpoint")]),
    ("data", record [("version", .str version), ("content", .str content)])]

/-- What has been read of the targets: the versions there is a content of, those
contents among them that were appended, and the two halves of the state. -/
structure Sweep where
  have_ : List String
  blobs : List (String × String) := []
  files : List (String × Lua) := []
  missing : List String := []

section

variable (versionOf : String → String)

def Sweep.target (disk : Disk) (s : Sweep) (path : String) : Sweep :=
  match disk path with
  | some content =>
      let version := versionOf content
      let s := { s with files := Lua.setField s.files path (.str version) }
      if version ∈ s.have_ then s
      else { s with
        have_ := version :: s.have_
        blobs := s.blobs ++ [(version, content)] }
  | none => { s with missing := s.missing ++ [path] }

def sweep (disk : Disk) (targets have_ : List String) : Sweep :=
  targets.foldl (Sweep.target versionOf disk) { have_ }

/-- The record of a state.  It is under no beat before the first one. -/
def checkpointEvent (s : Sweep) (beat : Option String) : Lua :=
  record [("kind", .str "checkpoint"),
    ("meta", record [("label", .str "checkpoint"), ("beat", beat.elim .nil .str)]),
    ("data", record [("files", .table [] s.files),
      ("missing", if s.missing.isEmpty then .nil else array (s.missing.map Lua.str))])]

/-- What a run appends for a state of the files, by what it read of its log. -/
def recordCheckpoint (targets : List String) (events : List Lua) (disk : Disk)
    (beat : Option String) : List Lua :=
  let s := sweep versionOf disk targets (recordedVersions events)
  s.blobs.map (fun b => checkpointBlob b.1 b.2) ++ [checkpointEvent s beat]

end

/-! ### Restoring -/

/-- The repo that a `config` event names. -/
def configRepo (ev : Lua) : Option String :=
  if isKind "config" ev then ((((ev.get "data").get "values").get "repo").get "value").asStr
  else none

/-- The repo that the last `config` event of a log names. -/
def recordedRepo (events : List Lua) : Option String :=
  events.foldl (fun found ev => (configRepo ev).or found) none

/-- What is left of a path under a directory. -/
def underRepo (dir path : String) : Option String :=
  ((dir ++ "/").toList.isPrefixOf? path.toList).map String.ofList

/-- Where a recorded path is written. -/
def placed (reroot : Option (String × String)) (path : String) : Except Lua String :=
  match reroot with
  | none => .ok path
  | some (dir, into) =>
      match underRepo dir path with
      | some rest => .ok (into ++ "/" ++ rest)
      | none =>
          .error (.str ("coding.restore: " ++ path ++ " is not under the run's repo " ++ dir ++
            ", so it has no place under " ++ into))

/-- Write the files, one after the other: what is written, and where that was, or
the refusal that ended it. -/
def writeFiles (reroot : Option (String × String)) :
    List (String × String) → List (String × String) × Except Lua (List String)
  | [] => ([], .ok [])
  | (path, content) :: rest =>
      match placed reroot path with
      | .error e => ([], .error e)
      | .ok target =>
          let (writes, targets) := writeFiles reroot rest
          ((target, content) :: writes, targets.map (target :: ·))

structure Restored where
  restored : List String
  missing : List String

/-- The files of a state in the order of their paths. -/
def byPath (files : List (String × String)) : List (String × String) :=
  files.mergeSort fun a b => decide (a.1 ≤ b.1)

/-- The writes of a state, and what is answered when they are done. -/
def restoreState (state : FileState) (reroot : Option (String × String)) :
    List (String × String) × Except Lua Restored :=
  let (writes, restored) := writeFiles reroot (byPath state.files)
  (writes, do
    let restored ← restored
    let missing ← state.missing.mapM (placed reroot)
    .ok { restored, missing })

/-- `coding.restore`: what it writes, in order, and what it answers. -/
def restore (events : List Lua) (beat : String) (repo : Option String) :
    List (String × String) × Except Lua Restored :=
  if beat = "" then
    ([], .error (.str "coding.restore: beat must be a beat id or \"baseline\", got "))
  else if repo = some "" then
    ([], .error (.str "coding.restore: repo must be a directory path, got "))
  else
    match checkpointAt events beat with
    | .error e => ([], .error e)
    | .ok none =>
        ([], .error (.str ("coding.restore: the log records no state of the files after beat " ++
          beat)))
    | .ok (some state) =>
        match repo with
        | none => restoreState state none
        | some into =>
            -- only a re-rooting asks what directory the run recorded
            match recordedRepo events with
            | none =>
                ([], .error (.str ("coding.restore: the log carries no `config` event naming " ++
                  "the run's repo, so its paths cannot be re-rooted")))
            | some dir => restoreState state (some (dir, trimSlashes into))

/-- The files after some writes. -/
def laid (disk : Disk) (writes : List (String × String)) : Disk :=
  writes.foldl (fun d w => Function.update d w.1 (some w.2)) disk

/-! ### A run -/

/-- What a run does that its log shows: it appends an event, or it records the
state of the files by so much of its log as one read answers. -/
inductive Move where
  | other (ev : Lua)
  | record (beat : Option String) (disk : Disk) (read : Nat)

/-- What a restore calls the state. -/
def Move.label : Move → Option String
  | other _ => none
  | record beat _ _ => some (beat.getD BASELINE)

def play (versionOf : String → String) (targets : List String) (log : List Lua) :
    List Move → List Lua
  | [] => log
  | .other ev :: rest => play versionOf targets (log ++ [ev]) rest
  | .record beat disk read :: rest =>
      play versionOf targets
        (log ++ recordCheckpoint versionOf targets (log.take read) disk beat) rest

/-- A run that records the states of its targets.  What it found in its log before
its own `config` event is its history: a fork's copy of another run's record, or
next to nothing. -/
structure Run where
  repo : String
  named : Named
  targets : List String
  history : List Lua
  config : Lua
  moves : List Move

def Run.log (versionOf : String → String) (r : Run) : List Lua :=
  play versionOf r.targets (r.history ++ [r.config]) r.moves

/-- An event that is none of those a state is read from. -/
def Plain (ev : Lua) : Prop :=
  isKind CHECKPOINT_KIND ev = false ∧ isKind BLOB_KIND ev = false ∧ configRepo ev = none

/-- What a run keeps to.  Distinct contents, of those that it or its history
read, have distinct versions, and each state follows a beat of its own. -/
structure Run.Sound (versionOf : String → String) (held : Set String) (r : Run) : Prop where
  distinct : Set.InjOn versionOf held
  history : Honest versionOf held r.history
  config : configRepo r.config = some (trimSlashes r.repo)
  named : Coding.targets r.named (trimSlashes r.repo) = .ok r.targets
  plain : ∀ ev, .other ev ∈ r.moves → Plain ev
  reads : ∀ beat disk read, .record beat disk read ∈ r.moves → ∀ path content,
    disk path = some content → content ∈ held
  beats : (r.moves.filterMap Move.label).Nodup
  minted : ∀ label ∈ r.moves.filterMap Move.label, label ≠ ""

end AgentBlock.Coding
