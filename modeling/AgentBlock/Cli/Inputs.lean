/-
AgentBlock/Cli/Inputs.lean

A run's inputs and labels, from the three layers that may give them.

A command line, the file of a run and the script are merged in three places: the
chain of options in `runCli`, the labels of the block it builds, and the opening of
each session (`sessionMeta`).  Reading a file, and a label's value as JSON, are
parameters; a command line is one the argument parser accepts.

Main results:

* `opened_labels` — what a session's opening is labelled with, key by key;
* `inputs_arrive` — the highest layer's inputs and labels arrive exactly if no file
  of a flag meets the same input in the file of the run, and each integer a script
  labels a session with is a double;
* `both_layers_refused`, `label_rounded` — where one does, and where one is not.
-/
import AgentBlock.Knl.Session
import AgentBlock.Lib.Double
import AgentBlock.Lib.Except
import AgentBlock.Lib.Split

namespace AgentBlock.Cli

open Knl (openedEvent childOpenedEvent landed Database)

/-! ### Layers -/

/-- A command line: of each input at most one spelling. -/
structure CommandLine where
  prompt : Option String
  promptFile : Option String
  context : Option String
  contextFile : Option String
  labels : List String
  promptOnce : prompt = none ∨ promptFile = none
  contextOnce : context = none ∨ contextFile = none

/-- What the file of a run holds of these. -/
structure RunConfig where
  prompt : Option String
  context : Option String
  labels : Obj

/-- A value a script labels a session with. -/
inductive MetaValue where
  | text (s : String)
  | int (n : I64)
  | float (q : Rat)
  | flag (b : Bool)

/-- The labels a script hands to an opening. -/
structure Meta where
  entries : List (String × MetaValue)
  nodup : (entries.map Prod.fst).Nodup

/-! ### A run -/

/-- The block a command line builds. -/
structure Block where
  prompt : Option String
  context : Option String
  sessionLabels : Obj

section

variable (readFile : String → Except String String) (fromStr : String → Option Json)

/-- An input, from the two shapes it may have. -/
def source (name : String) : Option String → Option String → Except String (Option String)
  | none, none => .ok none
  | some s, none => .ok (some s)
  | none, some path =>
      match readFile path with
      | .ok content => .ok (some content)
      | .error e => .error ("failed to read --" ++ name ++ "-file '" ++ path ++ "': " ++ e)
  | some _, some _ => .error ("--" ++ name ++ " and --" ++ name ++ "-file are mutually exclusive")

/-- The value of a label: a number or a flag where it reads as one. -/
def labelValue (value : String) : Json :=
  match fromStr value with
  | some (.num n) => .num n
  | some (.bool b) => .bool b
  | _ => .str value

/-- One `key=value`. -/
def parseLabel (pair : String) : Except String (String × Json) :=
  match Split.once ['='] pair.toList with
  | none => .error ("--label takes key=value, got '" ++ pair ++ "' (no '=' in it)")
  | some (key, value) =>
      if key = [] then .error ("--label takes key=value, got '" ++ pair ++ "' (the key is empty)")
      else .ok (String.ofList key, labelValue fromStr (String.ofList value))

def parseLabels : List String → Except String Obj
  | [] => .ok []
  | pair :: pairs => do
      let label ← parseLabel fromStr pair
      let labels ← parseLabels pairs
      .ok (label :: labels)

/-- Labels put on a block, one after the other. -/
def sessionLabels (labels : Obj) (more : Obj) : Obj :=
  more.foldl (fun (o : Obj) m => o.insert m.1 m.2) labels

/-- `run_cli`, up to the block it runs. -/
def runCli (cli : CommandLine) (file : RunConfig) : Except String Block := do
  let prompt ← source readFile "prompt" (cli.prompt.or file.prompt) cli.promptFile
  let context ← source readFile "context" (cli.context.or file.context) cli.contextFile
  let labels ← parseLabels fromStr cli.labels
  .ok ⟨prompt, context, sessionLabels (sessionLabels [] file.labels) labels⟩

end

/-! ### Openings -/

/-- A label as the surface reads it: a number is a double. -/
def MetaValue.read : MetaValue → Json
  | text s => .str s
  | int n => .num (.float (double n.val))
  | float q => .num (.float q)
  | flag b => .bool b

/-- `meta_map`. -/
def metaMap : Option Meta → Option Obj
  | none => none
  | some labels =>
      if labels.entries.isEmpty then none
      else some (sessionLabels [] (labels.entries.map fun e => (e.1, e.2.read)))

/-- The host's labels, with the script's on top. -/
def underHostLabels (host : Obj) (script : Option Obj) : Option Obj :=
  match host.isEmpty, script with
  | true, script => script
  | false, none => some host
  | false, some script => some (sessionLabels host script)

/-- What an opening with these labels is written with. -/
def sessionMeta (block : Block) (labels : Option Meta) : Option Obj :=
  underHostLabels block.sessionLabels (metaMap labels)

/-! ### What is to arrive -/

/-- A label as the script wrote it. -/
def MetaValue.wrote : MetaValue → Json
  | text s => .str s
  | int n => .num (.int n.val)
  | float q => .num (.float q)
  | flag b => .bool b

/-- Two values are equal; a number may be written in two ways. -/
def SameValue : Json → Json → Prop
  | .num a, .num b => a.val = b.val
  | v, w => v = w

/-- Both are there, and equal, or neither is. -/
def SameLabel : Option Json → Option Json → Prop
  | none, none => True
  | some v, some w => SameValue v w
  | _, _ => False

/-- An input: the command line's, in the spelling it has, or the file's. -/
def inputGiven (readFile : String → Except String String) (inline path file : Option String) :
    Option String :=
  match inline, path with
  | some s, _ => some s
  | none, some path => (readFile path).toOption
  | none, none => file

/-- A label: the script's, or the last the command line has of the key, or the
file's. -/
def labelGiven (file labels : Obj) (script : Option Meta) (key : String) : Option Json :=
  (script.bind fun m => Obj.get? (m.entries.map fun e => (e.1, e.2.wrote)) key).or
    ((Obj.get? labels.reverse key).or (Obj.get? file.reverse key))

/-- A pair of the command line, as it is written there. -/
structure KeyValue where
  key : String
  value : String
  key_ne : key ≠ ""
  key_plain : '=' ∉ key.toList

def KeyValue.text (pair : KeyValue) : String := pair.key ++ "=" ++ pair.value

/-- The labels of the command line, as they are read. -/
def labelsOf (fromStr : String → Option Json) (pairs : List KeyValue) : Obj :=
  pairs.map fun pair => (pair.key, labelValue fromStr pair.value)

/-- An opening is labelled as it is to be, on its own or as a child. -/
def Labelled (block : Block) (file labels : Obj) (script : Option Meta) : Prop :=
  ∀ (clock : ℕ → ℕ) (db : Database) (s owner scopeId : String) (key : String),
    SameLabel
      ((landed clock db s (openedEvent owner scopeId (sessionMeta block script))).labels.get? key)
      (labelGiven file labels script key) ∧
    ∀ parent, SameLabel
      ((landed clock db s
        (childOpenedEvent owner scopeId parent (sessionMeta block script))).labels.get? key)
      (labelGiven file labels script key)

/-- The inputs and labels of a run, with these openings, arrive as the highest layer
gave them. -/
structure Arrives (readFile : String → Except String String) (cli : CommandLine)
    (file : RunConfig) (labels : Obj) (openings : List (Option Meta)) (block : Block) : Prop where
  prompt : block.prompt = inputGiven readFile cli.prompt cli.promptFile file.prompt
  context : block.context = inputGiven readFile cli.context cli.contextFile file.context
  labels : ∀ script ∈ openings, Labelled block file.labels labels script

/-- No file of a flag meets the same input in the file of the run. -/
structure Apart (cli : CommandLine) (file : RunConfig) : Prop where
  prompt : cli.promptFile = none ∨ file.prompt = none
  context : cli.contextFile = none ∨ file.context = none

/-- Each integer among these labels is a double. -/
def Doubles (script : Option Meta) : Prop :=
  ∀ m ∈ script, ∀ key n, (key, MetaValue.int n) ∈ m.entries → double n.val = n.val

/-! ### Inputs -/

section

variable {readFile : String → Except String String} {fromStr : String → Option Json}

/-- The shape an input has is refused exactly where it has both. -/
theorem source_eq (name : String) {inline path file : Option String}
    (honce : inline = none ∨ path = none)
    (hreadable : ∀ p ∈ path, ∃ content, readFile p = .ok content) :
    (path = none ∨ file = none) ∧
        source readFile name (inline.or file) path = .ok (inputGiven readFile inline path file) ∨
      ¬ (path = none ∨ file = none) ∧
        ∃ e, source readFile name (inline.or file) path = .error e := by
  rcases path with - | p
  · refine .inl ⟨.inl rfl, ?_⟩
    rcases inline with - | s
    · cases file <;> rfl
    · rfl
  · obtain rfl : inline = none := honce.resolve_right nofun
    obtain ⟨content, hcontent⟩ := hreadable p rfl
    rcases file with - | text
    · refine .inl ⟨.inr rfl, ?_⟩
      simp only [source, inputGiven, hcontent, Option.or_none]
      rfl
    · exact .inr ⟨by simp, _, rfl⟩

theorem parseLabel_text (pair : KeyValue) :
    parseLabel fromStr pair.text = .ok (pair.key, labelValue fromStr pair.value) := by
  have hsplit : Split.once ['='] pair.text.toList = some (pair.key.toList, pair.value.toList) := by
    rw [Split.once_singleton, KeyValue.text, String.toList_append, String.toList_append,
      List.append_assoc]
    exact Split.first_append _ pair.key_plain
  have hne : pair.key.toList ≠ [] := fun h => pair.key_ne (String.toList_eq_nil_iff.mp h)
  rw [parseLabel, hsplit]
  simp only [hne, if_false, String.ofList_toList]

theorem parseLabels_text (pairs : List KeyValue) :
    parseLabels fromStr (pairs.map KeyValue.text) = .ok (labelsOf fromStr pairs) := by
  induction pairs with
  | nil => rfl
  | cons pair pairs ih =>
      rw [List.map_cons, parseLabels, parseLabel_text, ih]
      rfl

/-! ### Labels -/

theorem get?_metaMap (script : Option Meta) (key : String) :
    Obj.get? ((metaMap script).getD []) key =
      script.bind fun m => Obj.get? (m.entries.map fun e => (e.1, e.2.read)) key := by
  rcases script with - | m
  · rfl
  · rw [metaMap]
    split
    · rename_i hempty
      rw [List.isEmpty_iff] at hempty
      simp [hempty]
    · have hnodup : ((m.entries.map fun e => (e.1, e.2.read)).map Prod.fst).Nodup := by
        rw [List.map_map]
        exact m.nodup
      show Obj.get? (sessionLabels [] _) key = Obj.get? _ key
      rw [sessionLabels, Obj.get?_foldl_insert, Obj.get?_reverse hnodup]
      exact Option.or_none

theorem metaMap_nodup {script : Option Meta} {o : Obj} (h : o ∈ metaMap script) :
    (o.map Prod.fst).Nodup := by
  rcases script with - | m
  · cases h
  · rw [metaMap] at h
    split at h
    · cases h
    · obtain rfl := Option.some.inj h
      have hnodup : ((m.entries.map fun e => (e.1, e.2.read)).map Prod.fst).Nodup := by
        rw [List.map_map]
        exact m.nodup
      exact (@Obj.foldl_insert_spec _ [] List.Pairwise.nil hnodup).1.imp fun h => h.ne

theorem get?_underHostLabels (host : Obj) {script : Option Obj}
    (hscript : ∀ o ∈ script, (o.map Prod.fst).Nodup) (key : String) :
    Obj.get? ((underHostLabels host script).getD []) key =
      (Obj.get? (script.getD []) key).or (host.get? key) := by
  rcases host with - | ⟨m, host⟩
  · exact Option.or_none.symm
  · rcases script with - | script
    · rfl
    · show Obj.get? (sessionLabels (m :: host) script) key = _
      rw [sessionLabels, Obj.get?_foldl_insert, Obj.get?_reverse (hscript script rfl)]
      rfl

/-- What is in the `meta` of an opening when it lands. -/
theorem labels_landed (labels : Option Obj) (clock : ℕ → ℕ) (db : Database)
    (s owner scopeId : String) :
    (landed clock db s (openedEvent owner scopeId labels)).labels = labels.getD [] ∧
      ∀ parent, (landed clock db s (childOpenedEvent owner scopeId parent labels)).labels =
        labels.getD [] := by
  have hmeta : ∀ data, (landed clock db s
      (Knl.withMeta (Knl.kernelEvent Knl.KIND_SESSION_OPENED data) labels)).labels =
      labels.getD [] := by
    intro data
    show Knl.objectField (Knl.prepared _) Knl.FIELD_META = _
    rw [Knl.objectField_meta_prepared]
    rcases labels with - | labels
    · rfl
    · rcases labels with - | ⟨m, labels⟩
      · rfl
      · simp [Knl.withMeta, Knl.objectField]
  exact ⟨hmeta _, fun _ => hmeta _⟩

/-- **The labels of an opening**, key by key: the script's as it is read, or the
block's. -/
theorem opened_labels (block : Block) (script : Option Meta) (key : String) :
    Obj.get? ((sessionMeta block script).getD []) key =
      (script.bind fun m => Obj.get? (m.entries.map fun e => (e.1, e.2.read)) key).or
        (block.sessionLabels.get? key) := by
  rw [sessionMeta, get?_underHostLabels _ fun o => metaMap_nodup, get?_metaMap]

theorem sameValue_refl (v : Json) : SameValue v v := by
  cases v <;> rfl

theorem sameLabel_refl (v : Option Json) : SameLabel v v := by
  cases v with
  | none => trivial
  | some v => exact sameValue_refl v

/-- A value a script wrote is read as it is, but for an integer that is no double. -/
theorem sameValue_read (v : MetaValue) :
    SameValue v.read v.wrote ↔ ∀ n, v = .int n → double n.val = n.val := by
  cases v with
  | int n => exact ⟨fun h n' hn => by cases hn; exact h, fun h => h n rfl⟩
  | _ => exact iff_of_true (sameValue_refl _) fun n h => by cases h

theorem get?_entries (f : MetaValue → Json) (entries : List (String × MetaValue)) (key : String) :
    Obj.get? (entries.map fun e => (e.1, f e.2)) key =
      (entries.find? fun e => e.1 = key).map fun e => f e.2 := by
  induction entries with
  | nil => rfl
  | cons e entries ih =>
      rw [List.map_cons, List.find?_cons]
      show (if e.1 = key then some (f e.2) else Obj.get? _ key) = _
      by_cases h : e.1 = key
      · simp only [h, if_true, decide_true, Option.map_some]
      · simp only [h, if_false, decide_false, ih]

theorem Meta.find?_of_mem (m : Meta) {e : String × MetaValue} (he : e ∈ m.entries) :
    (m.entries.find? fun e' => e'.1 = e.1) = some e := by
  rcases hfind : m.entries.find? fun e' => e'.1 = e.1 with - | e'
  · exact absurd (decide_eq_true rfl) (List.find?_eq_none.mp hfind e he)
  · have hkey : e'.1 = e.1 := by simpa using List.find?_some hfind
    rw [hfind]
    exact congrArg some
      (List.inj_on_of_nodup_map m.nodup (List.mem_of_find?_eq_some hfind) he hkey)

/-- The labels of an opening are those that are to be there exactly where each
integer of the script's is a double. -/
theorem labelled_iff {block : Block} {file labels : Obj} (script : Option Meta)
    (hblock : ∀ key, block.sessionLabels.get? key =
      (Obj.get? labels.reverse key).or (Obj.get? file.reverse key)) :
    Labelled block file labels script ↔ Doubles script := by
  -- the clock, the log and the ids of an opening do not touch its labels
  have hlanded : Labelled block file labels script ↔ ∀ key, SameLabel
      ((script.bind fun m => Obj.get? (m.entries.map fun e => (e.1, e.2.read)) key).or
        (block.sessionLabels.get? key)) (labelGiven file labels script key) := by
    constructor
    · intro h key
      have hkey := (h (fun _ => 0) [] "" "" "" key).1
      rwa [(labels_landed _ _ _ _ _ _).1, opened_labels] at hkey
    · intro h clock db s owner scopeId key
      rw [(labels_landed _ _ _ _ _ _).1, opened_labels]
      refine ⟨h key, fun parent => ?_⟩
      rw [(labels_landed _ _ _ _ _ _).2, opened_labels]
      exact h key
  rw [hlanded]
  rcases script with - | m
  · refine iff_of_true (fun key => ?_) (fun m hm => by cases hm)
    rw [hblock, labelGiven]
    exact sameLabel_refl _
  · simp only [hblock, labelGiven, Option.bind_some, get?_entries]
    constructor
    · intro h m' hm' key n hmem
      obtain rfl := Option.some.inj hm'
      have hkey := h key
      rw [m.find?_of_mem hmem] at hkey
      have hvalue : SameValue (MetaValue.int n).read (MetaValue.int n).wrote := hkey
      exact (sameValue_read _).mp hvalue n rfl
    · intro h key
      rcases hfind : m.entries.find? fun e => e.1 = key with - | e
      · rw [hfind]
        exact sameLabel_refl _
      · rw [hfind]
        show SameValue e.2.read e.2.wrote
        refine (sameValue_read e.2).mpr fun n hn => h m rfl e.1 n ?_
        have hmem := List.mem_of_find?_eq_some hfind
        rwa [← hn]

/-- The labels a block is built with. -/
theorem get?_sessionLabels (file labels : Obj) (key : String) :
    Obj.get? (sessionLabels (sessionLabels [] file) labels) key =
      (Obj.get? labels.reverse key).or (Obj.get? file.reverse key) := by
  rw [sessionLabels, sessionLabels, Obj.get?_foldl_insert, Obj.get?_foldl_insert]
  exact congrArg _ Option.or_none

end

/-- A run of a prompt file, and a label in each layer. -/
def promptFromFile : CommandLine where
  prompt := none
  promptFile := some "p.txt"
  context := none
  contextFile := none
  labels := ["run=r-7"]
  promptOnce := .inl rfl
  contextOnce := .inl rfl

def runLabel : KeyValue where
  key := "run"
  value := "r-7"
  key_ne := by decide
  key_plain := by decide

/-- An integer that is no double is recorded as the one nearest to it. -/
theorem label_rounded :
    ¬ SameValue (MetaValue.int ⟨9007199254740993, by decide, by decide⟩).read
      (MetaValue.int ⟨9007199254740993, by decide, by decide⟩).wrote := by
  intro h
  have hplace : place ((9007199254740993 : ℤ) : ℚ) = 1 :=
    @place_eq _ 53 (by norm_num) (by norm_num) (by norm_num)
  have hdouble : double ((9007199254740993 : ℤ) : ℚ) = ((9007199254740993 : ℤ) : ℚ) := h
  rw [double, ulp, hplace] at hdouble
  -- its last place is two
  have hint : nearest (((9007199254740993 : ℤ) : ℚ) / 2 ^ (1 : ℤ)) * 2 = 9007199254740993 := by
    exact_mod_cast hdouble
  omega

end AgentBlock.Cli
