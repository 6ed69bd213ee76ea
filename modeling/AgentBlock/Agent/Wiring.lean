/-
AgentBlock/Agent/Wiring.lean

The tools a run is wired to, and the servers they come from.

A server is connected under a guard and everything after that is not: what it
lists is read, its handlers are set and its tools are bound by calls and reads
that raise.  Each step of the wiring stands here with what it needs to answer.

A host call of one kind is made once for a server, so what it answers is known
by the server's place in the list.  How a value is shown is a parameter.
-/
import AgentBlock.Shell.Turns

namespace AgentBlock.Agent

open Lua (record array)
open Shell (isKey blocksOf)

/-! ### Reads that may raise -/

/-- The step answered. -/
def Answers {α : Type} (r : Except Lua α) : Prop := ∃ a, r = .ok a

/-- What stands in a text without being shown first. -/
def concatenable : Lua → Bool
  | .str _ => true
  | .num _ => true
  | _ => false

/-- A value as it stands in a text. -/
def shown (tostring : Lua → String) : Lua → String
  | .str s => s
  | v => tostring v

/-- Texts put together. -/
def concat (tostring : Lua → String) : List Lua → Except Lua String
  | [] => .ok ""
  | v :: rest =>
      if concatenable v then (concat tostring rest).map fun text => shown tostring v ++ text
      else .error (.str ("attempt to concatenate a " ++ v.type ++ " value"))

/-- `#v`. -/
def length : Lua → Except Lua Nat
  | .table items _ => .ok items.length
  | .str s => .ok s.utf8ByteSize
  | v => .error (.str ("attempt to get length of a " ++ v.type ++ " value"))

/-- A loop over `pairs(v)` can be started. -/
def checkPairs (v : Lua) : Except Lua Unit :=
  if v.isTable then .ok ()
  else .error (.str ("bad argument #1 to 'for iterator' (table expected, got " ++ v.type ++ ")"))

section

variable {α β : Type} {r : Except Lua α} {tostring : Lua → String}

theorem answers_ok (a : α) : Answers (.ok a : Except Lua α) := ⟨a, rfl⟩

theorem not_answers_error (e : Lua) : ¬ Answers (.error e : Except Lua α) := by
  rintro ⟨a, h⟩
  cases h

theorem answers_bind {f : α → Except Lua β} :
    Answers (r.bind f) ↔ ∃ a, r = .ok a ∧ Answers (f a) := by
  cases r with
  | error e => exact ⟨fun h => absurd h (not_answers_error e), (fun ⟨_, h, _⟩ => nomatch h)⟩
  | ok a =>
      constructor
      · exact fun h => ⟨a, rfl, h⟩
      · rintro ⟨_, ⟨⟩, h⟩
        exact h

theorem answers_map {f : α → β} : Answers (r.map f) ↔ Answers r := by
  cases r with
  | error e => exact ⟨fun h => absurd h (not_answers_error e), fun h => absurd h (not_answers_error e)⟩
  | ok a => exact ⟨fun _ => answers_ok a, fun _ => answers_ok (f a)⟩

theorem answers_concat {vs : List Lua} :
    Answers (concat tostring vs) ↔ ∀ v ∈ vs, concatenable v = true := by
  induction vs with
  | nil => exact ⟨(fun _ _ hv => nomatch hv), fun _ => answers_ok ""⟩
  | cons v rest ih =>
      rw [concat, List.forall_mem_cons]
      split
      · next hv =>
        rw [answers_map, ih]
        exact ⟨fun h => ⟨hv, h⟩, fun h => h.2⟩
      · next hv => exact ⟨fun h => absurd h (not_answers_error _), fun h => absurd h.1 hv⟩

theorem index_eq (v : Lua) (key : String) :
    v.index key = if v.isIndexable then .ok (v.get key) else .error v.indexError := by
  by_cases h : v.isIndexable = true
  · rw [if_pos h, Lua.index_of_isIndexable h]
  · rw [if_neg h, Lua.index_of_not_isIndexable (Bool.eq_false_of_not_eq_true h)]

theorem ipairs_eq (v : Lua) :
    v.ipairs = if v.isIndexable then .ok (blocksOf v) else .error v.indexError := by
  cases v <;> rfl

end

/-! ### The host -/

/-- What the host does in one run. -/
structure Host where
  schema : Except Lua Lua
  connect : Nat → Except Lua Lua
  setSamplingHandler : Nat → Except Lua Lua
  listTools : Nat → Except Lua Lua
  onProgress : Nat → Except Lua Lua
  serverInfo : Nat → Except Lua Lua
  onLog : Nat → Except Lua Lua

/-- A function, of which nothing is read. -/
def function : Lua := .other "function"

section Wiring

variable (tostring : Lua → String) (host : Host) (opts : Lua)

/-! ### Groups -/

/-- The group of a listed tool: its own, or the server. -/
def resolveMcpGroup (entry server : Lua) : Except Lua Lua := do
  let declared ← entry.index "_meta"
  match declared.get "group" with
  | .str g => .ok (if g = "" then server else .str g)
  | _ => .ok server

/-- The active groups; none is every group. -/
def groupSetOf (groups : Lua) : Except Lua (Option (List Lua)) :=
  if !groups.truthy then .ok none
  else do
    let n ← length groups
    if n = 0 then .ok none
    else
      let names ← groups.ipairs
      if names.all isKey then .ok (some names) else .error (.str "index is NaN")

def inGroups (group : Lua) : Option (List Lua) → Bool
  | none => true
  | some set => set.any fun name => name.eq (group.orElse (.str "default"))

/-! ### Candidates -/

def candidate (group bind : Lua) : Lua := record [("group", group), ("bind", bind)]

/-- Every registered tool. -/
def registered : List Lua → Except Lua (List Lua)
  | [] => .ok []
  | spec :: rest => do
      let name ← spec.index "name"
      let bind := record [("name", name), ("description", spec.get "description"),
        ("input_schema", spec.get "input_schema"), ("handler", function)]
      let more ← registered rest
      .ok (candidate (spec.get "group") bind :: more)

def registryCandidates : Except Lua (List Lua) := do
  let declared ← host.schema
  let specs ← declared.ipairs
  registered specs

/-- A tool of the caller's, flat or with its schema beside its handler. -/
def extraCandidate (t : Lua) : Except Lua Lua := do
  let name ← t.index "name"
  if (t.get "schema").truthy && (t.get "handler").truthy then
    let description ← (t.get "schema").index "description"
    .ok (candidate (t.get "group") (record [("name", name), ("description", description),
      ("input_schema", (t.get "schema").get "input_schema"), ("handler", t.get "handler")]))
  else
    .ok (candidate (t.get "group") (record [("name", name), ("description", t.get "description"),
      ("input_schema", t.get "input_schema"), ("schema", t.get "schema"),
      ("handler", (t.get "handler").orElse function)]))

def extraEach : List Lua → Except Lua (List Lua)
  | [] => .ok []
  | t :: rest => do
      let bound ← extraCandidate t
      let more ← extraEach rest
      .ok (bound :: more)

def extraCandidates (extra : Lua) : Except Lua (List Lua) := do
  let tools ← (extra.orElse (.table [] [])).ipairs
  extraEach tools

/-- A server's listed tool as a port. -/
def toolPort (server entry : Lua) : Except Lua Lua :=
  match server.asStr, (entry.get "name").asStr with
  | some s, some name =>
      if s = "" then .error (.str "ToolPort.mcp: server must be a non-empty string")
      else if name = "" then
        .error (.str "ToolPort.mcp: entry must be a tools/list item with a name")
      else .ok (record [("name", .str (s ++ "__" ++ name)),
        ("description", (entry.get "description").orElse (.str "")),
        ("input_schema", ((entry.get "inputSchema").orElse (entry.get "input_schema")).orElse
          (record [("type", .str "object"), ("properties", .table [] [])]))])
  | some s, none =>
      if s = "" then .error (.str "ToolPort.mcp: server must be a non-empty string")
      else .error (.str "ToolPort.mcp: entry must be a tools/list item with a name")
  | none, _ => .error (.str "ToolPort.mcp: server must be a non-empty string")

/-- A listed tool, where its group is active. -/
def admitted (server : Lua) (set : Option (List Lua)) (entry group : Lua) : Except Lua (List Lua) :=
  if inGroups group set then (toolPort server entry).map fun port => [candidate group port]
  else .ok []

/-- The listed tools of the active groups. -/
def listed (server : Lua) (set : Option (List Lua)) : List Lua → Except Lua (List Lua)
  | [] => .ok []
  | entry :: rest => do
      let group ← resolveMcpGroup entry server
      let here ← admitted server set entry group
      let more ← listed server set rest
      .ok (here ++ more)

/-- Every tool a connected server lists, or what it failed with. -/
def mcpToolCandidates (i : Nat) (server : Lua) : Except Lua (Except String (List Lua)) := do
  let list ← host.listTools i
  let ok ← list.index "ok"
  if !ok.truthy then
    let why ← concat tostring [.str "mcp list_tools failed for '", server, .str "': ",
      .str (tostring (list.get "error"))]
    .ok (.error why)
  else
    let set ← groupSetOf (opts.get "tool_groups")
    let tools ← ((list.get "tools").orElse (.table [] [])).ipairs
    let bound ← listed server set tools
    .ok (.ok bound)

/-! ### Handlers and capabilities -/

def wireProgress (i : Nat) : Except Lua Unit :=
  if (opts.get "on_progress").truthy then (host.onProgress i).map fun _ => ()
  else if (opts.get "progress_to_log").truthy then (host.onProgress i).map fun _ => ()
  else .ok ()

def wireSampling (i : Nat) (server : Lua) : Except Lua Unit :=
  if (opts.get "sampling").truthy then
    match host.setSamplingHandler i with
    | .ok _ => .ok ()
    | .error e => (concat tostring [.str "agent: mcp set_sampling_handler failed for '", server,
        .str "': ", .str (tostring e)]).map fun _ => ()
  else .ok ()

/-- A tool that reaches what a server has besides tools. -/
def metaCandidate (server : Lua) (suffix about : String) (schema : Lua) : Except Lua Lua := do
  let name ← concat tostring [server, .str suffix]
  let description ← concat tostring [.str about, server, .str "'"]
  .ok (candidate server (record [("name", .str name), ("description", .str description),
    ("input_schema", schema), ("handler", function)]))

def objectSchema (properties : Lua) (required : List Lua) : Lua :=
  record [("type", .str "object"), ("properties", properties),
    ("required", if required.isEmpty then .nil else array required)]

def resourceCandidates (server : Lua) : Except Lua (List Lua) := do
  let list ← metaCandidate tostring server "__mcp_list_resources"
    "List available resources on MCP server '" (objectSchema (.table [] []) [])
  let read ← metaCandidate tostring server "__mcp_read_resource"
    "Read a resource by URI from MCP server '"
    (objectSchema (record [("uri", record [("type", .str "string")])]) [.str "uri"])
  .ok [list, read]

def promptCandidates (server : Lua) : Except Lua (List Lua) := do
  let list ← metaCandidate tostring server "__mcp_list_prompts"
    "List available prompts on MCP server '" (objectSchema (.table [] []) [])
  let get ← metaCandidate tostring server "__mcp_get_prompt"
    "Get a prompt by name from MCP server '"
    (objectSchema (record [("name", record [("type", .str "string")]),
      ("args", record [("type", .str "object")])]) [.str "name"])
  .ok [list, get]

/-- A line of the log that names the server. -/
def note (before : String) (server : Lua) (after : String) : Except Lua Unit :=
  (concat tostring [.str before, server, .str after]).map fun _ => ()

/-- One opt-in: what the capability gives, or a line that there is none. -/
def optIn {α : Type} (wanted : Bool) (caps : Lua) (capability missing : String) (server : Lua)
    (give : Except Lua α) (none : α) : Except Lua α :=
  if wanted then do
    let has ← caps.index capability
    if has.isNil then (note tostring "agent: server '" server missing).map fun _ => none
    else give
  else .ok none

/-- What a server says of itself that it can do. -/
def capabilitiesOf (told : Lua) : Except Lua Lua :=
  (if told.truthy then told.index "capabilities" else .ok told).map fun caps =>
    caps.orElse (.table [] [])

/-- The capability-gated opt-ins. -/
def wireCapabilities (i : Nat) (server : Lua) : Except Lua (List Lua) :=
  let logs := (opts.get "on_log").truthy || (opts.get "log_to_stderr").truthy
  if !((opts.get "enable_resources").truthy || (opts.get "enable_prompts").truthy || logs) then
    .ok []
  else do
    let info ← host.serverInfo i
    let ok ← info.index "ok"
    if !ok.truthy then
      (note tostring "agent: mcp.server_info failed for '" server
        ("': " ++ tostring (info.get "error"))).map fun _ => []
    else
      let caps ← capabilitiesOf (info.get "server_info")
      let resources ← optIn tostring (opts.get "enable_resources").truthy caps "resources"
        "' has no resources capability; skipping register" server
        (resourceCandidates tostring server) []
      let prompts ← optIn tostring (opts.get "enable_prompts").truthy caps "prompts"
        "' has no prompts capability; skipping register" server
        (promptCandidates tostring server) []
      optIn tostring logs caps "logging"
        "' has no logging capability; on_log/log_to_stderr skipped" server
        ((host.onLog i).map fun _ => ()) ()
      .ok (resources ++ prompts)

end Wiring

/-! ### What the wiring needs to answer -/

section Needs

variable (host : Host) (opts : Lua)

/-- The registry can be read. -/
def RegistryReads : Prop :=
  ∃ declared, host.schema = .ok declared ∧ declared.isIndexable = true ∧
    ∀ spec ∈ blocksOf declared, spec.isIndexable = true

/-- A tool of the caller's can be read. -/
def ExtraReads (t : Lua) : Prop :=
  t.isIndexable = true ∧ ((t.get "schema").truthy = true → (t.get "handler").truthy = true →
    (t.get "schema").isIndexable = true)

/-- And all of them. -/
def ExtrasRead (extra : Lua) : Prop :=
  (extra.orElse (.table [] [])).isIndexable = true ∧
    ∀ t ∈ blocksOf (extra.orElse (.table [] [])), ExtraReads t

/-- The names of the active groups can be keys. -/
def GroupsRead (groups : Lua) : Prop :=
  groups.truthy = true → groups.isIndexable = true ∧ ∀ name ∈ blocksOf groups, isKey name = true

/-- A listed tool is outside the active groups, or has a name, and its server
too. -/
def EntryBinds (server : Lua) (set : Option (List Lua)) (entry : Lua) : Prop :=
  ∃ group, resolveMcpGroup entry server = .ok group ∧
    (inGroups group set = true → server.asStr ≠ none ∧ server.asStr ≠ some "" ∧
      (entry.get "name").asStr ≠ none ∧ (entry.get "name").asStr ≠ some "")

/-- What the server lists can be read, or its failure told. -/
def ListReads (i : Nat) (server : Lua) : Prop :=
  ∃ list, host.listTools i = .ok list ∧ list.isIndexable = true ∧
    if (list.get "ok").truthy then
      GroupsRead (opts.get "tool_groups") ∧
        ((list.get "tools").orElse (.table [] [])).isIndexable = true ∧
        ∀ set, groupSetOf (opts.get "tool_groups") = .ok set →
          ∀ entry ∈ blocksOf ((list.get "tools").orElse (.table [] [])), EntryBinds server set entry
    else concatenable server = true

/-- The server lists its tools. -/
def Lists (i : Nat) : Prop := ∃ list, host.listTools i = .ok list ∧ (list.get "ok").truthy = true

/-- The progress handler is set, where one is asked for. -/
def ProgressWires (i : Nat) : Prop :=
  (opts.get "on_progress").truthy = true ∨ (opts.get "progress_to_log").truthy = true →
    Answers (host.onProgress i)

/-- The sampling handler is set, or its failure told. -/
def SamplingWires (i : Nat) (server : Lua) : Prop :=
  (opts.get "sampling").truthy = true → Answers (host.setSamplingHandler i) ∨
    concatenable server = true

/-- An opt-in is given, or its absence told. -/
def OptInWires (wanted : Bool) (caps : Lua) (capability : String) (server : Lua) (gives : Prop) :
    Prop :=
  wanted = true → caps.isIndexable = true ∧
    if (caps.get capability).isNil then concatenable server = true else gives

/-- What the server can do is read, where an opt-in asks for it. -/
def CapabilitiesWire (i : Nat) (server : Lua) : Prop :=
  let logs := (opts.get "on_log").truthy || (opts.get "log_to_stderr").truthy
  ((opts.get "enable_resources").truthy || (opts.get "enable_prompts").truthy || logs) = true →
    ∃ info, host.serverInfo i = .ok info ∧ info.isIndexable = true ∧
      if (info.get "ok").truthy then
        ∃ caps, capabilitiesOf (info.get "server_info") = .ok caps ∧
          OptInWires (opts.get "enable_resources").truthy caps "resources" server
            (concatenable server = true) ∧
          OptInWires (opts.get "enable_prompts").truthy caps "prompts" server
            (concatenable server = true) ∧
          OptInWires logs caps "logging" server (Answers (host.onLog i))
      else concatenable server = true

end Needs

section Answering

variable {tostring : Lua → String} {host : Host} {opts server : Lua} {i : Nat}

theorem answers_index_bind {α : Type} {v : Lua} {key : String} {f : Lua → Except Lua α} :
    Answers ((v.index key).bind f) ↔ v.isIndexable = true ∧ Answers (f (v.get key)) := by
  rw [index_eq]
  by_cases h : v.isIndexable = true
  · rw [if_pos h]
    exact ⟨fun hf => ⟨h, hf⟩, fun hf => hf.2⟩
  · rw [if_neg h]
    exact ⟨fun hf => absurd hf (not_answers_error _), fun hf => absurd hf.1 h⟩

theorem answers_ipairs_bind {α : Type} {v : Lua} {f : List Lua → Except Lua α} :
    Answers (v.ipairs.bind f) ↔ v.isIndexable = true ∧ Answers (f (blocksOf v)) := by
  rw [ipairs_eq]
  by_cases h : v.isIndexable = true
  · rw [if_pos h]
    exact ⟨fun hf => ⟨h, hf⟩, fun hf => hf.2⟩
  · rw [if_neg h]
    exact ⟨fun hf => absurd hf (not_answers_error _), fun hf => absurd hf.1 h⟩

/-- A step whose answer is only put to use. -/
theorem answers_bind_ok {α β : Type} {r : Except Lua α} {f : α → β} :
    Answers (r.bind fun a => .ok (f a)) ↔ Answers r := by
  rw [answers_bind]
  exact ⟨fun ⟨a, h, _⟩ => ⟨a, h⟩, fun ⟨a, h⟩ => ⟨a, h, answers_ok _⟩⟩

/-- A step, and then steps that its answer does not change. -/
theorem answers_bind_const {α β : Type} {r : Except Lua α} {f : α → Except Lua β} {P : Prop}
    (h : ∀ a, Answers (f a) ↔ P) : Answers (r.bind f) ↔ Answers r ∧ P := by
  rw [answers_bind]
  exact ⟨fun ⟨a, hr, hf⟩ => ⟨⟨a, hr⟩, (h a).mp hf⟩, fun ⟨⟨a, hr⟩, hp⟩ => ⟨a, hr, (h a).mpr hp⟩⟩

/-! ### Candidates -/

theorem answers_registered {specs : List Lua} :
    Answers (registered specs) ↔ ∀ spec ∈ specs, spec.isIndexable = true := by
  induction specs with
  | nil => exact ⟨(fun _ _ hs => nomatch hs), fun _ => answers_ok []⟩
  | cons spec rest ih =>
      rw [List.forall_mem_cons, ← ih]
      show Answers ((spec.index "name").bind fun name => (registered rest).bind fun more => _) ↔ _
      rw [answers_index_bind, answers_bind_ok]

theorem answers_registryCandidates : Answers (registryCandidates host) ↔ RegistryReads host := by
  show Answers (host.schema.bind fun declared => declared.ipairs.bind registered) ↔ _
  rw [answers_bind]
  refine exists_congr fun declared => and_congr_right fun _ => ?_
  rw [answers_ipairs_bind, answers_registered]

theorem answers_extraCandidate {t : Lua} : Answers (extraCandidate t) ↔ ExtraReads t := by
  show Answers ((t.index "name").bind _) ↔ _
  rw [answers_index_bind]
  refine and_congr_right fun _ => ?_
  by_cases h : ((t.get "schema").truthy && (t.get "handler").truthy) = true
  · rw [if_pos h]
    obtain ⟨hschema, hhandler⟩ := Bool.and_eq_true_iff.mp h
    show Answers (((t.get "schema").index "description").bind fun description => _) ↔ _
    rw [answers_index_bind]
    exact ⟨fun hr _ _ => hr.1, fun hr => ⟨hr hschema hhandler, answers_ok _⟩⟩
  · rw [if_neg h]
    exact ⟨fun _ hs hh => absurd (Bool.and_eq_true_iff.mpr ⟨hs, hh⟩) h, fun _ => answers_ok _⟩

theorem answers_extraCandidates {extra : Lua} :
    Answers (extraCandidates extra) ↔ ExtrasRead extra := by
  show Answers ((extra.orElse (.table [] [])).ipairs.bind extraEach) ↔ _
  rw [answers_ipairs_bind]
  refine and_congr_right fun _ => ?_
  generalize blocksOf (extra.orElse (.table [] [])) = tools
  induction tools with
  | nil => exact ⟨(fun _ _ ht => nomatch ht), fun _ => answers_ok []⟩
  | cons t rest ih =>
      rw [List.forall_mem_cons, ← ih, ← answers_extraCandidate]
      show Answers ((extraCandidate t).bind fun bound => (extraEach rest).bind fun more => _) ↔ _
      exact answers_bind_const fun bound => answers_bind_ok

/-! ### What a server lists -/

theorem answers_groupSetOf {groups : Lua} : Answers (groupSetOf groups) ↔ GroupsRead groups := by
  rw [groupSetOf, GroupsRead]
  cases htruthy : groups.truthy with
  | false => exact ⟨(fun _ h => nomatch h), fun _ => answers_ok none⟩
  | true =>
      simp only [Bool.not_true, Bool.false_eq_true, if_false, forall_const]
      cases groups with
      | table items fields =>
          show Answers (if items.length = 0 then _ else _) ↔ _
          by_cases hempty : items.length = 0
          · rw [if_pos hempty, List.eq_nil_of_length_eq_zero hempty]
            exact ⟨fun _ => ⟨rfl, (fun _ h => nomatch h)⟩, fun _ => answers_ok none⟩
          · rw [if_neg hempty]
            show Answers (if items.all isKey then _ else _) ↔ true = true ∧ ∀ name ∈ items, _
            by_cases hkeys : items.all isKey = true
            · rw [if_pos hkeys]
              exact ⟨fun _ => ⟨rfl, List.all_eq_true.mp hkeys⟩, fun _ => answers_ok _⟩
            · rw [if_neg hkeys]
              exact ⟨fun h => absurd h (not_answers_error _),
                fun h => absurd (List.all_eq_true.mpr h.2) hkeys⟩
      | str s =>
          refine ⟨fun _ => ⟨rfl, (fun _ h => nomatch h)⟩, fun _ => ?_⟩
          show Answers (if s.utf8ByteSize = 0 then _ else _)
          split <;> exact answers_ok _
      | _ => exact ⟨fun h => absurd h (not_answers_error _), (fun h => nomatch h.1)⟩

theorem answers_toolPort {entry : Lua} :
    Answers (toolPort server entry) ↔ server.asStr ≠ none ∧ server.asStr ≠ some "" ∧
      (entry.get "name").asStr ≠ none ∧ (entry.get "name").asStr ≠ some "" := by
  rw [toolPort]
  cases server.asStr with
  | none => exact ⟨fun h => absurd h (not_answers_error _), fun h => absurd rfl h.1⟩
  | some s =>
      cases (entry.get "name").asStr with
      | none =>
          refine ⟨fun h => absurd h ?_, fun h => absurd rfl h.2.2.1⟩
          dsimp only
          split <;> exact not_answers_error _
      | some name =>
          dsimp only
          by_cases hs : s = ""
          · rw [if_pos hs]
            exact ⟨fun h => absurd h (not_answers_error _), fun h => absurd (by rw [hs]) h.2.1⟩
          by_cases hname : name = ""
          · rw [if_neg hs, if_pos hname]
            exact ⟨fun h => absurd h (not_answers_error _), fun h => absurd (by rw [hname]) h.2.2.2⟩
          · rw [if_neg hs, if_neg hname]
            exact ⟨fun _ => ⟨nofun, (fun h => hs (Option.some.inj h)), nofun,
              fun h => hname (Option.some.inj h)⟩, fun _ => answers_ok _⟩

theorem answers_listed {set : Option (List Lua)} {entries : List Lua} :
    Answers (listed server set entries) ↔ ∀ entry ∈ entries, EntryBinds server set entry := by
  induction entries with
  | nil => exact ⟨(fun _ _ h => nomatch h), fun _ => answers_ok []⟩
  | cons entry rest ih =>
      rw [List.forall_mem_cons, ← ih]
      show Answers ((resolveMcpGroup entry server).bind fun group =>
        (admitted server set entry group).bind fun here =>
          (listed server set rest).bind fun more => .ok (here ++ more)) ↔ _
      rw [answers_bind, EntryBinds, ← exists_and_right]
      refine exists_congr fun group => ?_
      rw [and_assoc]
      refine and_congr_right fun _ => ?_
      rw [answers_bind_const fun here => answers_bind_ok, admitted]
      refine and_congr_left fun _ => ?_
      by_cases h : inGroups group set = true
      · rw [if_pos h, answers_map, answers_toolPort]
        exact ⟨fun hr _ => hr, fun hr => hr h⟩
      · rw [if_neg h]
        exact ⟨fun _ hr => absurd hr h, fun _ => answers_ok _⟩

theorem answers_mcpToolCandidates (tostring : Lua → String) :
    Answers (mcpToolCandidates tostring host opts i server) ↔ ListReads host opts i server := by
  show Answers ((host.listTools i).bind fun list => (list.index "ok").bind _) ↔ _
  rw [answers_bind]
  refine exists_congr fun list => and_congr_right fun _ => ?_
  rw [answers_index_bind]
  refine and_congr_right fun _ => ?_
  by_cases hok : (list.get "ok").truthy = true
  · rw [if_neg (by rw [hok]; exact nofun), if_pos hok]
    show Answers ((groupSetOf (opts.get "tool_groups")).bind fun set =>
      ((list.get "tools").orElse (.table [] [])).ipairs.bind fun tools =>
        (listed server set tools).bind fun bound => _) ↔ _
    rw [answers_bind, ← answers_groupSetOf]
    simp only [answers_ipairs_bind, answers_bind_ok, answers_listed]
    constructor
    · rintro ⟨set, hset, htools, hall⟩
      refine ⟨⟨set, hset⟩, htools, fun set' hset' => ?_⟩
      rw [hset] at hset'
      cases hset'
      exact hall
    · rintro ⟨⟨set, hset⟩, htools, hall⟩
      exact ⟨set, hset, htools, hall set hset⟩
  · rw [if_pos (by simpa using hok), if_neg hok]
    show Answers ((concat tostring _).bind fun why => _) ↔ _
    rw [answers_bind_ok, answers_concat]
    simp [concatenable]

/-! ### Handlers and capabilities -/

theorem answers_wireProgress : Answers (wireProgress host opts i) ↔ ProgressWires host opts i := by
  rw [wireProgress, ProgressWires]
  by_cases hp : (opts.get "on_progress").truthy = true
  · rw [if_pos hp, answers_map]
    exact ⟨fun h _ => h, fun h => h (.inl hp)⟩
  by_cases hl : (opts.get "progress_to_log").truthy = true
  · rw [if_neg hp, if_pos hl, answers_map]
    exact ⟨fun h _ => h, fun h => h (.inr hl)⟩
  · rw [if_neg hp, if_neg hl]
    exact ⟨fun _ h => absurd h (not_or.mpr ⟨hp, hl⟩), fun _ => answers_ok ()⟩

theorem answers_note {before after : String} :
    Answers (note tostring before server after) ↔ concatenable server = true := by
  rw [note, answers_map, answers_concat]
  simp [concatenable]

theorem answers_wireSampling :
    Answers (wireSampling tostring host opts i server) ↔ SamplingWires host opts i server := by
  rw [wireSampling, SamplingWires]
  by_cases hs : (opts.get "sampling").truthy = true
  · rw [if_pos hs]
    cases host.setSamplingHandler i with
    | ok v => exact ⟨fun _ _ => .inl (answers_ok v), fun _ => answers_ok ()⟩
    | error e =>
        dsimp only
        rw [answers_map, answers_concat]
        have hnot := not_answers_error (α := Lua) e
        simp [concatenable, hs, hnot]
  · rw [if_neg hs]
    exact ⟨fun _ h => absurd h hs, fun _ => answers_ok ()⟩

theorem answers_metaCandidate {suffix about : String} {schema : Lua} :
    Answers (metaCandidate tostring server suffix about schema) ↔ concatenable server = true := by
  show Answers ((concat tostring _).bind fun name => (concat tostring _).bind fun description => _) ↔ _
  rw [answers_bind_const fun name => answers_bind_ok, answers_concat, answers_concat]
  simp [concatenable]

theorem answers_resourceCandidates :
    Answers (resourceCandidates tostring server) ↔ concatenable server = true := by
  show Answers ((metaCandidate tostring server _ _ _).bind fun list =>
    (metaCandidate tostring server _ _ _).bind fun read => _) ↔ _
  rw [answers_bind_const fun list => answers_bind_ok, answers_metaCandidate, answers_metaCandidate,
    and_self]

theorem answers_promptCandidates :
    Answers (promptCandidates tostring server) ↔ concatenable server = true := by
  show Answers ((metaCandidate tostring server _ _ _).bind fun list =>
    (metaCandidate tostring server _ _ _).bind fun get => _) ↔ _
  rw [answers_bind_const fun list => answers_bind_ok, answers_metaCandidate, answers_metaCandidate,
    and_self]

theorem answers_optIn {α : Type} {wanted : Bool} {caps : Lua} {capability missing : String}
    {give : Except Lua α} {none : α} :
    Answers (optIn tostring wanted caps capability missing server give none) ↔
      OptInWires wanted caps capability server (Answers give) := by
  rw [optIn, OptInWires]
  cases wanted with
  | false => exact ⟨(fun _ h => nomatch h), fun _ => answers_ok none⟩
  | true =>
      rw [if_pos rfl, forall_prop_of_true rfl]
      show Answers ((caps.index capability).bind _) ↔ _
      rw [answers_index_bind]
      refine and_congr_right fun _ => ?_
      split
      · rw [answers_map, answers_note]
      · exact Iff.rfl

theorem answers_wireCapabilities :
    Answers (wireCapabilities tostring host opts i server) ↔
      CapabilitiesWire host opts i server := by
  rw [wireCapabilities, CapabilitiesWire]
  by_cases hwanted : ((opts.get "enable_resources").truthy || (opts.get "enable_prompts").truthy ||
      ((opts.get "on_log").truthy || (opts.get "log_to_stderr").truthy)) = true
  · rw [if_neg (by rw [hwanted]; exact nofun), forall_prop_of_true hwanted]
    show Answers ((host.serverInfo i).bind fun info => (info.index "ok").bind _) ↔ _
    rw [answers_bind]
    refine exists_congr fun info => and_congr_right fun _ => ?_
    rw [answers_index_bind]
    refine and_congr_right fun _ => ?_
    by_cases hok : (info.get "ok").truthy = true
    · rw [if_neg (by rw [hok]; exact nofun), if_pos hok]
      show Answers ((capabilitiesOf (info.get "server_info")).bind fun caps =>
        (optIn tostring _ caps "resources" _ server (resourceCandidates tostring server) []).bind
          fun resources => (optIn tostring _ caps "prompts" _ server
            (promptCandidates tostring server) []).bind fun prompts =>
              (optIn tostring _ caps "logging" _ server _ ()).bind fun _ => _) ↔ _
      rw [answers_bind]
      refine exists_congr fun caps => and_congr_right fun _ => ?_
      rw [answers_bind_const fun resources => answers_bind_const fun prompts => answers_bind_ok,
        answers_optIn, answers_optIn, answers_optIn, answers_resourceCandidates,
        answers_promptCandidates, answers_map]
    · rw [if_pos (by simpa using hok), if_neg hok, answers_map, answers_note]
  · rw [if_pos (by simpa using hwanted)]
    exact ⟨fun _ h => absurd h hwanted, fun _ => answers_ok []⟩

end Answering

end AgentBlock.Agent
