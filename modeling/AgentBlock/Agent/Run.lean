/-
AgentBlock/Agent/Run.lean

A run around its loop: what it prepares, what it answers, and what it leaves
connected.

The loop with its session runs under a guard, and so does the building of the
device; their outcome is the world's to choose.  What `prepare` does before them
is not guarded (`Wiring`), and a raise in it leaves the run with its servers
still connected.

Main results:

* `sound_connectServers` — when the servers are wired, or one of them failed,
  with nothing raised;
* `neverThrows_disconnecting` — what disconnecting at the end of a run takes;
* `neverThrows_iff` — a run answers one of the two results and disconnects what
  it connected exactly where its wiring never raises;
* `a_raise_leaves_a_server_connected`.
-/
import AgentBlock.Agent.Wiring

namespace AgentBlock.Agent

open Lua (record array)
open Shell (Device blocksOf fold)

/-! ### Results -/

/-- A count of tokens. -/
structure Usage where
  inputTokens : LuaNumber
  outputTokens : LuaNumber
  totalTokens : LuaNumber
  thinkingTokens : LuaNumber

def Usage.toLua (u : Usage) : Lua :=
  record [("input_tokens", .num u.inputTokens), ("output_tokens", .num u.outputTokens),
    ("total_tokens", .num u.totalTokens), ("thinking_tokens", .num u.thinkingTokens)]

def zeroUsage : Usage := ⟨.int 0, .int 0, .int 0, .int 0⟩

/-- What the loop ended with. -/
structure Tally where
  turns : Nat
  content : String
  failure : Option String
  usage : Usage

def runErr (error : String) (usage : Usage) (turns : Nat) (messages : Lua) : Lua :=
  record [("ok", .bool false), ("error", .str error), ("usage", usage.toLua),
    ("num_turns", .num (.int turns)), ("messages", messages)]

def runOk (content : String) (usage : Usage) (turns : Nat) (messages : Lua) : Lua :=
  record [("ok", .bool true), ("content", .str content), ("usage", usage.toLua),
    ("num_turns", .num (.int turns)), ("messages", messages)]

/-- A failure before, or instead of, a run. -/
def failed (error : String) : Lua := runErr error zeroUsage 0 (.table [] [])

/-- The loop's tally, and the thread it leaves in the log. -/
def resultOf (encode : Lua → Except Lua String) (device : Device) (tally : Tally)
    (recorded : List Lua) (truncated : Bool) : Except Lua Lua :=
  if truncated then
    let cut := "the session log is longer than one read of it (" ++ toString recorded.length ++
      " events, the kernel's row cap), so this run's history cannot be rebuilt whole"
    .ok (runErr (tally.failure.elim cut fun failure => failure ++ "; " ++ cut) tally.usage
      tally.turns (.table [] []))
  else do
    let request ← fold encode (array recorded) device
    match tally.failure with
    | some failure => .ok (runErr failure tally.usage tally.turns (request.get "messages"))
    | none => .ok (runOk tally.content tally.usage tally.turns (request.get "messages"))

/-- One of the two forms: `content` and no error, or an error and no `content`,
both with the rest. -/
def IsResult (v : Lua) : Prop :=
  ((v.get "ok" = .bool true ∧ (∃ s, v.get "content" = .str s) ∧ v.get "error" = .nil) ∨
    (v.get "ok" = .bool false ∧ (∃ s, v.get "error" = .str s) ∧ v.get "content" = .nil)) ∧
  (∃ u : Usage, v.get "usage" = u.toLua) ∧ (∃ n : Nat, v.get "num_turns" = .num (.int n)) ∧
    ∃ messages, v.get "messages" = array messages

/-! ### The run -/

/-- The end of a session: the tally of its loop, and the read of its log. -/
structure SessionEnd where
  tally : Tally
  recorded : List Lua
  truncated : Bool

/-- What the world does in one run. -/
structure World extends Host where
  build : List Lua → Except Lua Device
  session : Except Lua SessionEnd
  close : Except Lua Unit
  disconnect : Nat → Except Lua Lua

/-- What a run does to the host that outlasts the call. -/
inductive HostCall where
  | connected (name : Lua)
  | connectFailed (name : Lua)
  | listFailed (name : Lua)
  | disconnected (name : Lua)
  | session

/-- Every server is wired, or one failed; and the names to disconnect. -/
inductive Wired where
  | failed (error : String) (connected : List Lua)
  | wired (candidates connected : List Lua)

def Wired.connected : Wired → List Lua
  | .failed _ connected => connected
  | .wired _ connected => connected

section Run

variable (tostring : Lua → String) (encode : Lua → Except Lua String) (world : World) (opts : Lua)

/-- Read how a server is reached; over HTTP its options are copied. -/
def readTransport (srv : Lua) : Except Lua Unit := do
  let url ← srv.index "url"
  if url.truthy then checkPairs ((srv.get "transport_opts").orElse (.table [] [])) else .ok ()

/-- Connect one server, under a guard; the failure is told by its name. -/
def connectServer (i : Nat) (srv : Lua) : Except Lua (Option String) := do
  readTransport srv
  match world.connect i with
  | .ok _ => .ok none
  | .error e => (concat tostring [.str "mcp connect failed for '", srv.get "name", .str "': ",
      .str (tostring e)]).map some

/-- Set a connected server's handlers and bind its tools. -/
def wireServer (i : Nat) (name : Lua) : Except Lua (Except String (List Lua)) := do
  wireSampling tostring world.toHost opts i name
  match ← mcpToolCandidates tostring world.toHost opts i name with
  | .error why => .ok (.error why)
  | .ok bound => do
      wireProgress world.toHost opts i
      let more ← wireCapabilities tostring world.toHost opts i name
      .ok (.ok (bound ++ more))

/-- Connect the servers one after the other. -/
def connectServers : Nat → List Lua → List Lua → List Lua → Except Lua Wired × List HostCall
  | _, [], candidates, connected => (.ok (.wired candidates connected), [])
  | i, srv :: rest, candidates, connected =>
      match connectServer tostring world i srv with
      | .error e => (.error e, [])
      | .ok (some why) => (.ok (.failed why connected), [.connectFailed (srv.get "name")])
      | .ok none =>
          -- a name that is `nil` is not put in the list
          let connected := connected ++ if (srv.get "name").isNil then [] else [srv.get "name"]
          match wireServer tostring world opts i (srv.get "name") with
          | .error e => (.error e, [.connected (srv.get "name")])
          | .ok (.error why) => (.ok (.failed why connected),
              [.connected (srv.get "name"), .listFailed (srv.get "name")])
          | .ok (.ok bound) =>
              let r := connectServers (i + 1) rest (candidates ++ bound) connected
              (r.1, .connected (srv.get "name") :: r.2)

/-- Disconnect one, under a guard; the failure is told by its name. -/
def disconnectServer (j : Nat) (name : Lua) : Except Lua Unit :=
  match world.disconnect j with
  | .ok _ => .ok ()
  | .error e => note tostring "agent: mcp disconnect error for '" name ("': " ++ tostring e)

/-- Disconnect one after the other. -/
def disconnectMcpServers : Nat → List Lua → Except Lua Unit × List HostCall
  | _, [] => (.ok (), [])
  | j, name :: rest =>
      match disconnectServer tostring world j name with
      | .error e => (.error e, [.disconnected name])
      | .ok _ =>
          let r := disconnectMcpServers (j + 1) rest
          (r.1, .disconnected name :: r.2)

/-- Disconnect them all, and then come to something. -/
def disconnecting {α : Type} (a : α) (calls : List HostCall) (connected : List Lua) :
    Except Lua α × List HostCall :=
  let r := disconnectMcpServers tostring world 0 connected
  (r.1.map fun _ => a, calls ++ r.2)

/-- What the run is refused for before it touches the host. -/
def refusal : Option String :=
  let provider := (opts.get "provider").orElse (.str "anthropic")
  if !(opts.get "prompt").truthy || (opts.get "prompt").eq (.str "") then
    some "prompt is required"
  else if !(opts.get "history").isNil && !(opts.get "history").isTable then
    some "history must be a table (messages array)"
  else if (opts.get "timeout").type != "number" then some "timeout (seconds) is required"
  else if (opts.get "max_iterations").type != "number" then some "max_iterations is required"
  else if !(provider.eq (.str "anthropic") || provider.eq (.str "openai")) then
    some ("unknown provider '" ++ tostring provider ++ "' (anthropic | openai)")
  else none

/-- The servers there are to connect. -/
def serversOf (servers : Lua) : Except Lua (List Lua) :=
  if !servers.truthy then .ok []
  else do
    let n ← length servers
    if n = 0 then .ok [] else servers.ipairs

/-- A run that is ready, or what it comes back as. -/
inductive Prepared where
  | refused (result : Lua)
  | ready (device : Device) (connected : List Lua)

/-- The opts, checked, and everything the loop runs on built from them. -/
def prepare : Except Lua Prepared × List HostCall :=
  match refusal tostring opts with
  | some why => (.ok (.refused (failed why)), [])
  | none =>
      match (do
        let candidates ← registryCandidates world.toHost
        let servers ← serversOf (opts.get "mcp_servers")
        .ok (candidates, servers) : Except Lua (List Lua × List Lua)) with
      | .error e => (.error e, [])
      | .ok (candidates, servers) =>
          -- from here on servers are connected, and what goes wrong is to disconnect them
          let (wired, calls) := connectServers tostring world opts 0 servers candidates []
          match wired with
          | .error e => (.error e, calls)
          | .ok (.failed why connected) =>
              disconnecting tostring world (.refused (failed why)) calls connected
          | .ok (.wired candidates connected) =>
              match extraCandidates (opts.get "extra_tools") with
              | .error e => (.error e, calls)
              | .ok extra =>
                  match world.build (candidates ++ extra) with
                  | .error e =>
                      disconnecting tostring world (.refused (failed (tostring e))) calls connected
                  | .ok device => (.ok (.ready device connected), calls)

/-- The session's bracket: the loop, the read of its log, and the close. -/
def bracket (device : Device) : Except Lua Lua := do
  let ended ← world.session
  let result ← resultOf encode device ended.tally ended.recorded ended.truncated
  world.close
  .ok result

/-- A run that is ready runs its loop, and its servers are disconnected; one
that was refused is over. -/
def conclude : Except Lua Prepared × List HostCall → Except Lua Lua × List HostCall
  | (.error e, calls) => (.error e, calls)
  | (.ok (.refused result), calls) => (.ok result, calls)
  | (.ok (.ready device connected), calls) =>
      let result := match bracket encode world device with
        | .ok result => result
        | .error e => failed (tostring e)
      disconnecting tostring world result (calls ++ [.session]) connected

/-- **A run.** -/
def run : Except Lua Lua × List HostCall :=
  conclude tostring encode world (prepare tostring world opts)

end Run


/-! ### What a run promises -/

/-- The server a connect that returned was for. -/
def connectedName : HostCall → Option Lua
  | .connected name => some name
  | _ => none

def disconnectedName : HostCall → Option Lua
  | .disconnected name => some name
  | _ => none

/-- A server that would not connect, or would not list. -/
def isFailure : HostCall → Bool
  | .connectFailed _ => true
  | .listFailed _ => true
  | _ => false

def isSession : HostCall → Bool
  | .session => true
  | _ => false

/-- **A run never throws and leaves no server connected.** -/
structure NeverThrows (r : Except Lua Lua × List HostCall) : Prop where
  result : ∃ v, r.1 = .ok v ∧ IsResult v
  disconnects : (r.2.filterMap disconnectedName).Perm (r.2.filterMap connectedName)
  unopened : r.2.any isFailure = true → r.2.any isSession = false

section Conditions

variable (world : World) (opts : Lua)

/-- A server's entry can be read, and its failure to connect told. -/
def ConnectReads (i : Nat) (srv : Lua) : Prop :=
  srv.isIndexable = true ∧
    ((srv.get "url").truthy = true →
      ((srv.get "transport_opts").orElse (.table [] [])).isTable = true) ∧
    (¬ Answers (world.connect i) → concatenable (srv.get "name") = true)

/-- Each is disconnected, or its failure told. -/
def Disconnects : Nat → List Lua → Prop
  | _, [] => True
  | j, name :: rest =>
      (Answers (world.disconnect j) ∨ concatenable name = true) ∧ Disconnects (j + 1) rest

/-- Every server reached is wired with no raise, under a name; and what comes
`after` the last does not raise either. -/
def ServersWire (after : Prop) : Nat → List Lua → List Lua → Prop
  | _, [], connected => after ∧ Disconnects world 0 connected
  | i, srv :: rest, connected =>
      ConnectReads world i srv ∧
      (¬ Answers (world.connect i) → Disconnects world 0 connected) ∧
      (Answers (world.connect i) →
        (srv.get "name").isNil = false ∧
        SamplingWires world.toHost opts i (srv.get "name") ∧
        ListReads world.toHost opts i (srv.get "name") ∧
        (¬ Lists world.toHost i → Disconnects world 0 (connected ++ [srv.get "name"])) ∧
        (Lists world.toHost i →
          ProgressWires world.toHost opts i ∧
          CapabilitiesWire world.toHost opts i (srv.get "name") ∧
          ServersWire after (i + 1) rest (connected ++ [srv.get "name"])))

/-- The servers a list of them names; none where there is no list. -/
def serverList (servers : Lua) : List Lua := if servers.truthy then blocksOf servers else []

/-- The wiring of a run that is not refused never raises, and connects no
server that has no name. -/
def Wires (tostring : Lua → String) : Prop :=
  refusal tostring opts = none →
    RegistryReads world.toHost ∧
    ((opts.get "mcp_servers").truthy = true → (opts.get "mcp_servers").isIndexable = true) ∧
    ServersWire world opts (ExtrasRead (opts.get "extra_tools")) 0
      (serverList (opts.get "mcp_servers")) []

end Conditions

section

variable {tostring : Lua → String} {encode : Lua → Except Lua String} {world : World} {opts : Lua}

/-! ### Both forms of a result -/

theorem isResult_runErr {error : String} {usage : Usage} {turns : Nat} {messages : List Lua} :
    IsResult (runErr error usage turns (array messages)) := by
  have hkeys : ([("ok", Lua.bool false), ("error", .str error), ("usage", usage.toLua),
      ("num_turns", .num (.int turns)), ("messages", array messages)].map Prod.fst).Nodup := by
    simp
  refine ⟨.inr ⟨?_, ⟨error, ?_⟩, ?_⟩, ⟨usage, ?_⟩, ⟨turns, ?_⟩, ⟨messages, ?_⟩⟩ <;>
    (rw [runErr, Lua.get_record hkeys]; rfl)

theorem isResult_runOk {content : String} {usage : Usage} {turns : Nat} {messages : List Lua} :
    IsResult (runOk content usage turns (array messages)) := by
  have hkeys : ([("ok", Lua.bool true), ("content", .str content), ("usage", usage.toLua),
      ("num_turns", .num (.int turns)), ("messages", array messages)].map Prod.fst).Nodup := by
    simp
  refine ⟨.inl ⟨?_, ⟨content, ?_⟩, ?_⟩, ⟨usage, ?_⟩, ⟨turns, ?_⟩, ⟨messages, ?_⟩⟩ <;>
    (rw [runOk, Lua.get_record hkeys]; rfl)

theorem isResult_failed {error : String} : IsResult (failed error) :=
  @isResult_runErr _ _ _ []

theorem isResult_resultOf {device : Device} {tally : Tally} {recorded : List Lua}
    {truncated : Bool} {v : Lua} (h : resultOf encode device tally recorded truncated = .ok v) :
    IsResult v := by
  cases truncated with
  | true =>
      cases h
      exact @isResult_runErr _ _ _ []
  | false =>
      change (fold encode (array recorded) device).bind _ = _ at h
      rw [Shell.fold_array] at h
      cases hmessages : Shell.foldMessages encode recorded with
      | error e =>
          rw [hmessages] at h
          cases h
      | ok messages =>
          rw [hmessages] at h
          cases hfailure : tally.failure with
          | none =>
              rw [hfailure] at h
              cases h
              rw [Shell.requestOf_messages]
              exact isResult_runOk
          | some failure =>
              rw [hfailure] at h
              cases h
              rw [Shell.requestOf_messages]
              exact isResult_runErr

theorem isResult_bracket {device : Device} {v : Lua} (h : bracket encode world device = .ok v) :
    IsResult v := by
  obtain ⟨ended, -, h⟩ := Except.bind_eq_ok.mp h
  obtain ⟨result, hresult, h⟩ := Except.bind_eq_ok.mp h
  obtain ⟨_, -, h⟩ := Except.bind_eq_ok.mp h
  cases h
  exact isResult_resultOf hresult

end


/-! ### Disconnecting -/

section

variable {tostring : Lua → String} {encode : Lua → Except Lua String} {world : World} {opts : Lua}

theorem answers_disconnectServer (tostring : Lua → String) {j : Nat} {name : Lua} :
    Answers (disconnectServer tostring world j name) ↔
      Answers (world.disconnect j) ∨ concatenable name = true := by
  rw [disconnectServer]
  cases world.disconnect j with
  | ok v => exact ⟨fun _ => .inl (answers_ok v), fun _ => answers_ok ()⟩
  | error e =>
      show Answers (note tostring _ name _) ↔ _
      rw [answers_note]
      exact ⟨.inr, fun h => h.resolve_left (not_answers_error e)⟩

theorem answers_disconnectMcpServers (tostring : Lua → String) {names : List Lua} {j : Nat} :
    Answers (disconnectMcpServers tostring world j names).1 ↔ Disconnects world j names := by
  induction names generalizing j with
  | nil => exact ⟨fun _ => trivial, fun _ => answers_ok ()⟩
  | cons name rest ih =>
      rw [Disconnects, ← answers_disconnectServer tostring, ← ih,
        disconnectMcpServers]
      cases disconnectServer tostring world j name with
      | error e => exact ⟨fun h => absurd h (not_answers_error e), fun h => h.1⟩
      | ok _ => exact ⟨fun h => ⟨answers_ok (), h⟩, fun h => h.2⟩

/-- Where none of them raises, every name is told to the host, and nothing
else is done. -/
theorem disconnectMcpServers_calls {names : List Lua} {j : Nat}
    (h : Disconnects world j names) :
    (disconnectMcpServers tostring world j names).2 = names.map .disconnected := by
  induction names generalizing j with
  | nil => rfl
  | cons name rest ih =>
      obtain ⟨_, hname⟩ := (answers_disconnectServer tostring).mpr h.1
      rw [disconnectMcpServers, hname]
      show HostCall.disconnected name :: _ = _
      rw [ih h.2, List.map_cons]

/-! ### Connecting -/

theorem answers_readTransport {srv : Lua} :
    Answers (readTransport srv) ↔ srv.isIndexable = true ∧ ((srv.get "url").truthy = true →
      ((srv.get "transport_opts").orElse (.table [] [])).isTable = true) := by
  show Answers ((srv.index "url").bind fun url => _) ↔ _
  rw [answers_index_bind]
  refine and_congr_right fun _ => ?_
  by_cases hurl : (srv.get "url").truthy = true
  · rw [if_pos hurl, forall_prop_of_true hurl, checkPairs]
    split
    · next h => exact ⟨fun _ => h, fun _ => answers_ok ()⟩
    · next h => exact ⟨fun hr => absurd hr (not_answers_error _), fun hr => absurd hr h⟩
  · rw [if_neg hurl]
    exact ⟨fun _ hu => absurd hu hurl, fun _ => answers_ok ()⟩

theorem answers_connectServer (tostring : Lua → String) {i : Nat} {srv : Lua} :
    Answers (connectServer tostring world i srv) ↔ ConnectReads world i srv := by
  have htold : Answers (match world.connect i with
      | .ok _ => .ok none
      | .error e => (concat tostring [.str "mcp connect failed for '", srv.get "name", .str "': ",
          .str (tostring e)]).map some) ↔
      (¬ Answers (world.connect i) → concatenable (srv.get "name") = true) := by
    cases world.connect i with
    | ok v => exact ⟨fun _ h => absurd (answers_ok v) h, fun _ => answers_ok none⟩
    | error e =>
        rw [forall_prop_of_true (not_answers_error e)]
        show Answers ((concat tostring _).map some) ↔ _
        rw [answers_map, answers_concat]
        simp [concatenable]
  show Answers ((readTransport srv).bind fun _ => _) ↔ _
  rw [answers_bind_const fun _ => htold, answers_readTransport, ConnectReads, and_assoc]

/-- A server whose entry was read: it connected, or its failure is told. -/
theorem connectServer_ok {i : Nat} {srv : Lua} {told : Option String}
    (h : connectServer tostring world i srv = .ok told) :
    Answers (world.connect i) ↔ told = none := by
  obtain ⟨_, -, h⟩ := Except.bind_eq_ok.mp h
  cases hconnect : world.connect i with
  | ok v =>
      rw [hconnect] at h
      cases h
      exact ⟨fun _ => rfl, fun _ => answers_ok v⟩
  | error e =>
      rw [hconnect] at h
      change (concat tostring _).map some = _ at h
      cases hconcat : concat tostring [.str "mcp connect failed for '", srv.get "name",
          .str "': ", .str (tostring e)] with
      | error raised =>
          rw [hconcat] at h
          cases h
      | ok why =>
          rw [hconcat] at h
          cases h
          exact ⟨fun h => absurd h (not_answers_error e), nofun⟩

/-! ### Wiring -/

theorem mcpToolCandidates_ok {i : Nat} {name : Lua} {bound : Except String (List Lua)}
    (h : mcpToolCandidates tostring world.toHost opts i name = .ok bound) :
    Lists world.toHost i ↔ ∃ candidates, bound = .ok candidates := by
  obtain ⟨list, hlist, h⟩ := Except.bind_eq_ok.mp h
  obtain ⟨ok, hok, h⟩ := Except.bind_eq_ok.mp h
  have hlists : Lists world.toHost i ↔ ok.truthy = true := by
    rw [Lua.index_ok hok]
    constructor
    · rintro ⟨list', hlist', htruthy⟩
      rw [hlist] at hlist'
      cases hlist'
      exact htruthy
    · exact fun htruthy => ⟨list, hlist, htruthy⟩
  rw [hlists]
  cases htruthy : ok.truthy with
  | false =>
      rw [htruthy] at h
      obtain ⟨why, -, h⟩ := Except.bind_eq_ok.mp h
      cases h
      exact ⟨nofun, (fun ⟨_, h⟩ => nomatch h)⟩
  | true =>
      rw [htruthy] at h
      obtain ⟨set, -, h⟩ := Except.bind_eq_ok.mp h
      obtain ⟨tools, -, h⟩ := Except.bind_eq_ok.mp h
      obtain ⟨candidates, -, h⟩ := Except.bind_eq_ok.mp h
      cases h
      exact ⟨fun _ => ⟨candidates, rfl⟩, fun _ => rfl⟩

end

section

variable {tostring : Lua → String} {encode : Lua → Except Lua String} {world : World} {opts : Lua}
variable {i : Nat} {name : Lua}

theorem answers_wireServer :
    Answers (wireServer tostring world opts i name) ↔
      SamplingWires world.toHost opts i name ∧ ListReads world.toHost opts i name ∧
        (Lists world.toHost i →
          ProgressWires world.toHost opts i ∧ CapabilitiesWire world.toHost opts i name) := by
  show Answers ((wireSampling tostring world.toHost opts i name).bind fun _ =>
    (mcpToolCandidates tostring world.toHost opts i name).bind _) ↔ _
  rw [answers_bind_const fun _ => Iff.rfl, answers_wireSampling, answers_bind,
    ← answers_mcpToolCandidates tostring]
  refine and_congr_right fun _ => ?_
  -- a server that does not list is left before its handlers are set
  have hrest : ∀ bound, mcpToolCandidates tostring world.toHost opts i name = .ok bound →
      (Answers (match bound with
        | .error why => .ok (.error why)
        | .ok bound => (wireProgress world.toHost opts i).bind fun _ =>
            (wireCapabilities tostring world.toHost opts i name).bind fun more =>
              (.ok (.ok (bound ++ more)) : Except Lua (Except String (List Lua)))) ↔
        (Lists world.toHost i →
          ProgressWires world.toHost opts i ∧ CapabilitiesWire world.toHost opts i name)) := by
    intro bound hbound
    rw [mcpToolCandidates_ok hbound]
    cases bound with
    | error why => exact ⟨fun _ h => (nomatch h), fun _ => answers_ok _⟩
    | ok bound =>
        rw [forall_prop_of_true ⟨bound, rfl⟩]
        show Answers ((wireProgress world.toHost opts i).bind _) ↔ _
        rw [answers_bind_const fun _ => answers_bind_ok, answers_wireProgress,
          answers_wireCapabilities]
  constructor
  · rintro ⟨bound, hbound, h⟩
    exact ⟨⟨bound, hbound⟩, (hrest bound hbound).mp h⟩
  · rintro ⟨⟨bound, hbound⟩, h⟩
    exact ⟨bound, hbound, (hrest bound hbound).mpr h⟩

theorem wireServer_ok {bound : Except String (List Lua)}
    (h : wireServer tostring world opts i name = .ok bound) :
    Lists world.toHost i ↔ ∃ candidates, bound = .ok candidates := by
  obtain ⟨_, -, h⟩ := Except.bind_eq_ok.mp h
  obtain ⟨listed, hlisted, h⟩ := Except.bind_eq_ok.mp h
  rw [mcpToolCandidates_ok hlisted]
  cases listed with
  | error why =>
      cases h
      exact Iff.rfl
  | ok bound =>
      obtain ⟨_, -, h⟩ := Except.bind_eq_ok.mp h
      obtain ⟨more, -, h⟩ := Except.bind_eq_ok.mp h
      cases h
      exact ⟨fun _ => ⟨bound ++ more, rfl⟩, fun _ => ⟨bound, rfl⟩⟩

/-- What connecting the servers comes to, where nothing raised. -/
structure Connects (before : List Lua) (wired : Wired) (calls : List HostCall) : Prop where
  connected : wired.connected =
    before ++ (calls.filterMap connectedName).filter fun name => !name.isNil
  undisconnected : calls.filterMap disconnectedName = []
  unopened : calls.any isSession = false
  failed : ∀ candidates connected, wired = .wired candidates connected →
    calls.any isFailure = false

theorem connectServers_ok {servers candidates before : List Lua} {wired : Wired}
    (h : (connectServers tostring world opts i servers candidates before).1 = .ok wired) :
    Connects before wired (connectServers tostring world opts i servers candidates before).2 := by
  induction servers generalizing i candidates before with
  | nil =>
      cases h
      exact ⟨(List.append_nil before).symm, rfl, rfl, fun _ _ _ => rfl⟩
  | cons srv rest ih =>
      rw [connectServers] at h ⊢
      cases hconnect : connectServer tostring world i srv with
      | error e =>
          rw [hconnect] at h
          cases h
      | ok told =>
          rw [hconnect] at h
          cases told with
          | some why =>
              cases h
              exact ⟨(List.append_nil before).symm, rfl, rfl, nofun⟩
          | none =>
              cases hwire : wireServer tostring world opts i (srv.get "name") with
              | error e =>
                  simp only [hwire] at h
                  cases h
              | ok bound =>
                  simp only [hwire] at h ⊢
                  cases bound with
                  | error why =>
                      cases h
                      refine ⟨?_, rfl, rfl, nofun⟩
                      -- the server is connected though its tools could not be wired
                      show before ++ _ = before ++ List.filter _ [srv.get "name"]
                      cases hnil : (srv.get "name").isNil <;> simp [hnil]
                  | ok bound =>
                      have hrest := ih h
                      refine ⟨?_, hrest.undisconnected, hrest.unopened, hrest.failed⟩
                      rw [hrest.connected, List.append_assoc]
                      show _ = before ++ List.filter _ (srv.get "name" :: _)
                      cases hnil : (srv.get "name").isNil <;> simp [hnil]

end

/-! ### Wired to the end -/

/-- Nothing raised, what was connected has a name and can be disconnected, and
what comes `after` every server is wired holds. -/
structure Sound (world : World) (after : Prop) (r : Except Lua Wired × List HostCall) : Prop where
  answered : ∃ wired, r.1 = .ok wired ∧ Disconnects world 0 wired.connected ∧
    ∀ candidates connected, wired = .wired candidates connected → after
  named : ∀ name ∈ r.2.filterMap connectedName, name.isNil = false

section

variable {tostring : Lua → String} {encode : Lua → Except Lua String} {world : World} {opts : Lua}
variable {i : Nat}

/-- The first of the servers connected: it is wired, and then the rest are. -/
theorem sound_wired {after : Prop} {srv : Lua} {rest candidates before : List Lua}
    (ih : ∀ bound, Sound world after (connectServers tostring world opts (i + 1) rest bound
        (before ++ [srv.get "name"])) ↔
      ServersWire world opts after (i + 1) rest (before ++ [srv.get "name"])) :
    Sound world after
        (let connected := before ++ if (srv.get "name").isNil then [] else [srv.get "name"]
        match wireServer tostring world opts i (srv.get "name") with
        | .error e => (.error e, [.connected (srv.get "name")])
        | .ok (.error why) => (.ok (.failed why connected),
            [.connected (srv.get "name"), .listFailed (srv.get "name")])
        | .ok (.ok bound) =>
            let r := connectServers tostring world opts (i + 1) rest (candidates ++ bound) connected
            (r.1, .connected (srv.get "name") :: r.2)) ↔
      (srv.get "name").isNil = false ∧
      SamplingWires world.toHost opts i (srv.get "name") ∧
      ListReads world.toHost opts i (srv.get "name") ∧
      (¬ Lists world.toHost i → Disconnects world 0 (before ++ [srv.get "name"])) ∧
      (Lists world.toHost i →
        ProgressWires world.toHost opts i ∧
        CapabilitiesWire world.toHost opts i (srv.get "name") ∧
        ServersWire world opts after (i + 1) rest (before ++ [srv.get "name"])) := by
  generalize srv.get "name" = name at ih ⊢
  have hwires := @answers_wireServer tostring world opts i name
  cases hnil : name.isNil with
  | true =>
      -- it is among the connected ones, and not in the list
      refine iff_of_false (fun hsound => ?_) (fun h => nomatch h.1)
      have hnamed : name.isNil = false := by
        apply hsound.named
        dsimp only
        split <;> exact List.mem_cons_self
      rw [hnil] at hnamed
      cases hnamed
  | false =>
      simp only [Bool.false_eq_true, if_false, true_and]
      cases hwire : wireServer tostring world opts i name with
      | error e =>
          rw [hwire] at hwires
          constructor
          · rintro ⟨⟨_, ⟨⟩, _⟩, _⟩
          · rintro ⟨hsampling, hlist, -, hrest⟩
            have := hwires.mpr ⟨hsampling, hlist, fun h => ⟨(hrest h).1, (hrest h).2.1⟩⟩
            exact absurd this (not_answers_error e)
      | ok bound =>
          rw [hwire] at hwires
          obtain ⟨hsampling, hlist, hrest⟩ := hwires.mp (answers_ok bound)
          have hlists := wireServer_ok hwire
          rw [and_iff_right hsampling, and_iff_right hlist]
          cases bound with
          | error why =>
              have hnot : ¬ Lists world.toHost i := fun h => nomatch hlists.mp h
              constructor
              · rintro ⟨⟨_, ⟨⟩, hdisconnects, -⟩, -⟩
                exact ⟨fun _ => hdisconnects, fun h => absurd h hnot⟩
              · rintro ⟨hdisconnects, -⟩
                refine ⟨⟨_, rfl, hdisconnects hnot, nofun⟩, fun other hother => ?_⟩
                cases List.mem_singleton.mp hother
                exact hnil
          | ok bound =>
              have hdoes : Lists world.toHost i := hlists.mpr ⟨bound, rfl⟩
              rw [forall_prop_of_true hdoes, and_iff_right (hrest hdoes).1,
                and_iff_right (hrest hdoes).2, and_iff_right fun h => absurd hdoes h, ← ih]
              constructor
              · exact fun h => ⟨h.answered, fun other hother =>
                  h.named other (List.mem_cons_of_mem _ hother)⟩
              · refine fun h => ⟨h.answered, fun other hother => ?_⟩
                rcases List.mem_cons.mp hother with rfl | hother
                · exact hnil
                · exact h.named other hother

theorem sound_connectServers {after : Prop} {servers candidates before : List Lua} :
    Sound world after (connectServers tostring world opts i servers candidates before) ↔
      ServersWire world opts after i servers before := by
  induction servers generalizing i candidates before with
  | nil =>
      constructor
      · rintro ⟨⟨wired, ⟨⟩, hdisconnects, hafter⟩, -⟩
        exact ⟨hafter _ _ rfl, hdisconnects⟩
      · rintro ⟨hafter, hdisconnects⟩
        exact ⟨⟨_, rfl, hdisconnects, fun _ _ _ => hafter⟩, (fun _ h => nomatch h)⟩
  | cons srv rest ih =>
      rw [ServersWire, ← answers_connectServer tostring, connectServers]
      cases hconnect : connectServer tostring world i srv with
      | error e =>
          exact ⟨(fun ⟨⟨_, h, _⟩, _⟩ => nomatch h), fun h => absurd h.1 (not_answers_error e)⟩
      | ok told =>
          have hanswers := connectServer_ok hconnect
          cases told with
          | some why =>
              have hnot : ¬ Answers (world.connect i) := fun h => nomatch hanswers.mp h
              constructor
              · rintro ⟨⟨wired, ⟨⟩, hdisconnects, -⟩, -⟩
                exact ⟨answers_ok _, fun _ => hdisconnects, fun h => absurd h hnot⟩
              · rintro ⟨-, hdisconnects, -⟩
                exact ⟨⟨_, rfl, hdisconnects hnot, nofun⟩, (fun _ h => nomatch h)⟩
          | none =>
              have hconnected : Answers (world.connect i) := hanswers.mpr rfl
              rw [and_iff_right (answers_ok none),
                and_iff_right fun h : ¬ Answers (world.connect i) => absurd hconnected h,
                forall_prop_of_true hconnected]
              exact sound_wired fun bound => ih

end

/-! ### The whole run -/

section

variable {tostring : Lua → String} {encode : Lua → Except Lua String} {world : World} {opts : Lua}

/-- A run that is to disconnect keeps its promises exactly where it can, and
every server it connected has a name. -/
theorem neverThrows_disconnecting {v : Lua} {calls : List HostCall} {connected : List Lua}
    (hv : IsResult v) (hfree : calls.filterMap disconnectedName = [])
    (hunopened : calls.any isFailure = true → calls.any isSession = false)
    (hconnected : connected =
      (calls.filterMap connectedName).filter fun name => !name.isNil) :
    NeverThrows (disconnecting tostring world v calls connected) ↔
      Disconnects world 0 connected ∧
        ∀ name ∈ calls.filterMap connectedName, name.isNil = false := by
  rw [← answers_disconnectMcpServers tostring]
  have hcalls (h : Disconnects world 0 connected) :
      (disconnecting tostring world v calls connected).2 =
        calls ++ connected.map .disconnected := by
    show calls ++ _ = _
    rw [disconnectMcpServers_calls h]
  have hnames : (connected.map HostCall.disconnected).filterMap disconnectedName = connected := by
    rw [List.filterMap_map]
    exact List.filterMap_some
  have hnone : (connected.map HostCall.disconnected).filterMap connectedName = [] := by
    rw [List.filterMap_map]
    exact List.filterMap_eq_nil_iff.mpr fun _ _ => rfl
  constructor
  · intro h
    obtain ⟨_, hr, -⟩ := h.result
    have hanswers : Answers (disconnectMcpServers tostring world 0 connected).1 := by
      rw [← answers_map (f := fun _ => v)]
      exact ⟨_, hr⟩
    refine ⟨hanswers, ?_⟩
    have hperm := h.disconnects
    rw [hcalls ((answers_disconnectMcpServers tostring).mp hanswers), List.filterMap_append,
      List.filterMap_append, hfree, hnames, hnone, List.nil_append, List.append_nil,
      hconnected] at hperm
    intro name hname
    -- those disconnected are the connected ones that have a name, so all have one
    have := List.length_filter_eq_length_iff.mp hperm.length_eq name hname
    simpa using this
  · rintro ⟨⟨u, hu⟩, hnamed⟩
    have hdisconnects := (answers_disconnectMcpServers tostring).mp ⟨u, hu⟩
    refine ⟨⟨v, ?_, hv⟩, ?_, fun hfailure => ?_⟩
    · show ((disconnectMcpServers tostring world 0 connected).1.map fun _ => v) = _
      rw [hu]
      rfl
    · rw [hcalls hdisconnects, List.filterMap_append, List.filterMap_append, hfree, hnames, hnone,
        List.nil_append, List.append_nil, hconnected, List.filter_eq_self.mpr]
      intro name hname
      rw [hnamed name hname]
      rfl
    · rw [hcalls hdisconnects, List.any_append, List.any_map] at hfailure ⊢
      have hquiet (f : HostCall → Bool) (hf : ∀ name, f (.disconnected name) = false) :
          connected.any (f ∘ .disconnected) = false :=
        List.any_eq_false.mpr fun name _ => by simp [hf]
      rw [hquiet _ fun _ => rfl, Bool.or_false] at hfailure ⊢
      exact hunopened hfailure

theorem answers_serversOf {servers : Lua} :
    Answers (serversOf servers) ↔ (servers.truthy = true → servers.isIndexable = true) := by
  rw [serversOf]
  cases htruthy : servers.truthy with
  | false => exact ⟨(fun _ h => nomatch h), fun _ => answers_ok []⟩
  | true =>
      rw [forall_prop_of_true rfl]
      cases servers with
      | table items fields =>
          refine ⟨fun _ => rfl, fun _ => ?_⟩
          show Answers (if items.length = 0 then _ else _)
          split <;> exact answers_ok _
      | str s =>
          refine ⟨fun _ => rfl, fun _ => ?_⟩
          show Answers (if s.utf8ByteSize = 0 then _ else _)
          split <;> exact answers_ok _
      | _ => exact ⟨fun h => absurd h (not_answers_error _), nofun⟩

theorem serversOf_ok {servers : Lua} {list : List Lua} (h : serversOf servers = .ok list) :
    list = serverList servers := by
  rw [serversOf] at h
  rw [serverList]
  cases htruthy : servers.truthy with
  | false =>
      rw [htruthy] at h
      cases h
      rfl
  | true =>
      rw [htruthy] at h
      cases servers with
      | table items fields =>
          change (if items.length = 0 then Except.ok [] else Except.ok items) = _ at h
          show list = items
          split at h
          · next hempty =>
            cases h
            exact (List.eq_nil_of_length_eq_zero hempty).symm
          · cases h
            rfl
      | str s =>
          change (if s.utf8ByteSize = 0 then Except.ok [] else Except.ok []) = _ at h
          split at h <;> cases h <;> rfl
      | _ => cases h

theorem not_neverThrows_error {e : Lua} {calls : List HostCall} :
    ¬ NeverThrows (.error e, calls) := by
  rintro ⟨⟨_, ⟨⟩, _⟩, _, _⟩

/-- Disconnecting for a refused run comes to its result. -/
theorem conclude_disconnecting {v : Lua} {calls : List HostCall} {connected : List Lua} :
    conclude tostring encode world (disconnecting tostring world (.refused v) calls connected) =
      disconnecting tostring world v calls connected := by
  rw [disconnecting, disconnecting]
  cases (disconnectMcpServers tostring world 0 connected).1 <;> rfl

/-- What the loop and its bracket come back as. -/
theorem isResult_ended {device : Device} :
    IsResult (match bracket encode world device with
      | .ok result => result
      | .error e => failed (tostring e)) := by
  cases hbracket : bracket encode world device with
  | ok result => exact isResult_bracket hbracket
  | error e => exact isResult_failed

/-- Once the registry and the list of servers are read, all is decided by the
wiring. -/
theorem neverThrows_connected {candidates servers : List Lua} :
    NeverThrows (conclude tostring encode world
        (let (wired, calls) := connectServers tostring world opts 0 servers candidates []
        match wired with
        | .error e => (.error e, calls)
        | .ok (.failed why connected) =>
            disconnecting tostring world (.refused (failed why)) calls connected
        | .ok (.wired candidates connected) =>
            match extraCandidates (opts.get "extra_tools") with
            | .error e => (.error e, calls)
            | .ok extra =>
                match world.build (candidates ++ extra) with
                | .error e =>
                    disconnecting tostring world (.refused (failed (tostring e))) calls connected
                | .ok device => (.ok (.ready device connected), calls))) ↔
      Sound world (ExtrasRead (opts.get "extra_tools"))
        (connectServers tostring world opts 0 servers candidates []) := by
  cases hr : connectServers tostring world opts 0 servers candidates [] with
  | mk answer calls =>
  have hconnects : ∀ wired, answer = .ok wired → Connects [] wired calls := by
    rintro wired rfl
    have hok : (connectServers tostring world opts 0 servers candidates []).1 = .ok wired := by
      rw [hr]
    have := connectServers_ok hok
    rwa [hr] at this
  rcases answer with e | ⟨why, connected⟩ | ⟨bound, connected⟩
  · exact iff_of_false not_neverThrows_error fun h => by obtain ⟨_, ⟨⟩, _⟩ := h.answered
  · have hc := hconnects _ rfl
    have hlist : connected = (calls.filterMap connectedName).filter fun name => !name.isNil :=
      hc.connected
    show NeverThrows (conclude tostring encode world (disconnecting _ _ _ _ _)) ↔ _
    rw [conclude_disconnecting, neverThrows_disconnecting isResult_failed hc.undisconnected
      (fun _ => hc.unopened) hlist]
    constructor
    · exact fun h => ⟨⟨_, rfl, h.1, nofun⟩, h.2⟩
    · rintro ⟨⟨_, ⟨⟩, hdisconnects, -⟩, hnamed⟩
      exact ⟨hdisconnects, hnamed⟩
  · have hc := hconnects _ rfl
    have hlist : connected = (calls.filterMap connectedName).filter fun name => !name.isNil :=
      hc.connected
    have hsound : Sound world (ExtrasRead (opts.get "extra_tools"))
          (.ok (.wired bound connected), calls) ↔
        ExtrasRead (opts.get "extra_tools") ∧ Disconnects world 0 connected ∧
          ∀ name ∈ calls.filterMap connectedName, name.isNil = false := by
      constructor
      · rintro ⟨⟨_, ⟨⟩, hdisconnects, hextra⟩, hnamed⟩
        exact ⟨hextra _ _ rfl, hdisconnects, hnamed⟩
      · exact fun h => ⟨⟨_, rfl, h.2.1, fun _ _ _ => h.1⟩, h.2.2⟩
    rw [hsound, ← answers_extraCandidates]
    cases extraCandidates (opts.get "extra_tools") with
    | error e => exact iff_of_false not_neverThrows_error fun h => not_answers_error e h.1
    -- only a device that is built opens a session; a failed build disconnects at once
    | ok extra =>
        rw [and_iff_right (answers_ok extra)]
        show NeverThrows (conclude tostring encode world (match world.build (bound ++ extra) with
          | .error e => disconnecting tostring world (.refused (failed (tostring e))) calls connected
          | .ok device => (.ok (.ready device connected), calls))) ↔ _
        cases world.build (bound ++ extra) with
        | error e =>
            show NeverThrows (conclude tostring encode world (disconnecting _ _ _ _ _)) ↔ _
            rw [conclude_disconnecting, neverThrows_disconnecting isResult_failed
              hc.undisconnected (fun _ => hc.unopened) hlist]
        | ok device =>
            show NeverThrows (disconnecting tostring world _ (calls ++ [.session]) connected) ↔ _
            have hquiet : (calls ++ [HostCall.session]).any isFailure = false := by
              rw [List.any_append, hc.failed _ _ rfl]
              rfl
            have hnames : (calls ++ [HostCall.session]).filterMap connectedName =
                calls.filterMap connectedName := by
              rw [List.filterMap_append]
              exact List.append_nil _
            rw [neverThrows_disconnecting isResult_ended, hnames]
            · rw [List.filterMap_append, hc.undisconnected]
              rfl
            · intro h
              rw [hquiet] at h
              cases h
            · rw [hnames]
              exact hlist

/-- **When a run keeps its promises.**  Exactly where its wiring never raises,
and connects no server that has no name. -/
theorem neverThrows_iff :
    NeverThrows (run tostring encode world opts) ↔ Wires world opts tostring := by
  rw [run, prepare, Wires]
  cases hrefusal : refusal tostring opts with
  | some why =>
      refine iff_of_true ⟨⟨_, rfl, isResult_failed⟩, ?_, fun _ => rfl⟩ nofun
      exact List.Perm.refl _
  | none =>
      rw [forall_prop_of_true rfl]
      have hread : Answers ((registryCandidates world.toHost).bind fun candidates =>
            (serversOf (opts.get "mcp_servers")).bind fun servers => .ok (candidates, servers)) ↔
          RegistryReads world.toHost ∧ ((opts.get "mcp_servers").truthy = true →
            (opts.get "mcp_servers").isIndexable = true) := by
        rw [answers_bind_const fun _ => answers_bind_ok, answers_registryCandidates,
          answers_serversOf]
      rw [← and_assoc, ← hread]
      show NeverThrows (conclude tostring encode world (match (registryCandidates
        world.toHost).bind fun candidates => (serversOf (opts.get "mcp_servers")).bind fun servers =>
          .ok (candidates, servers) with
        | .error e => (.error e, [])
        | .ok (candidates, servers) => _)) ↔ _
      cases hall : (registryCandidates world.toHost).bind fun candidates =>
          (serversOf (opts.get "mcp_servers")).bind fun servers => .ok (candidates, servers) with
      | error e => exact iff_of_false not_neverThrows_error fun h => not_answers_error e h.1
      | ok both =>
          obtain ⟨candidates, servers⟩ := both
          obtain ⟨_, -, h⟩ := Except.bind_eq_ok.mp hall
          obtain ⟨_, hservers, h⟩ := Except.bind_eq_ok.mp h
          cases h
          rw [and_iff_right (answers_ok _), ← serversOf_ok hservers, ← sound_connectServers]
          exact neverThrows_connected

end


/-! ### A malformed entry after a good one -/

/-- A host that connects the first server, which lists no tool, and raises for
the second. -/
def forgetfulWorld : World where
  schema := .ok (array [])
  connect i := if i = 0 then .ok .nil else .error (.str "bad argument #1 to 'connect'")
  setSamplingHandler _ := .ok .nil
  listTools _ := .ok (record [("ok", .bool true), ("tools", array [])])
  onProgress _ := .ok .nil
  serverInfo _ := .ok .nil
  onLog _ := .ok .nil
  build _ := .ok { llm := true, tools := none, toolPolicy := false, filters := 0, system := .nil }
  session := .error (.str "not opened")
  close := .ok ()
  disconnect _ := .ok .nil

/-- The second server has no name. -/
def namelessOpts : Lua :=
  record [("prompt", .str "go"), ("timeout", .num (.int 60)), ("max_iterations", .num (.int 4)),
    ("mcp_servers", array [record [("name", .str "files"), ("command", .str "files-mcp")],
      record [("command", .str "other-mcp")]])]

/-- The name that is missing raises in the text of the failure, and the first
server stays connected. -/
theorem a_raise_leaves_a_server_connected :
    run Lua.type (fun _ => .ok "") forgetfulWorld namelessOpts =
        (.error (.str "attempt to concatenate a nil value"), [.connected (.str "files")]) ∧
      ¬ NeverThrows (run Lua.type (fun _ => .ok "") forgetfulWorld namelessOpts) := by
  have hrun : run Lua.type (fun _ => .ok "") forgetfulWorld namelessOpts =
      (.error (.str "attempt to concatenate a nil value"), [.connected (.str "files")]) := rfl
  refine ⟨hrun, ?_⟩
  rw [hrun]
  exact not_neverThrows_error
end AgentBlock.Agent
