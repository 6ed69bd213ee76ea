/-
AgentBlock/Shell/BeatTrace.lean

One beat, on every path.

Main results:

* `beat_guarded` — every call of a beat is made where its guard holds, and the
  outcome is the one its record calls for;
* `beat_trace` — so at every point of every path the record is a prefix of a
  legal one, the llm is called once at most and each handler once at most.
-/
import AgentBlock.Shell.Trace

namespace AgentBlock.Shell

open Interleaving
open Lua (record array)
open Prog (Guarded Alone)

variable {vm : Vm} {device : Device} {f : Facts}

/-! ### Where a beat ends -/

/-- The whole record of an answered call. -/
def Complete (f : Facts) : Prop :=
  ∃ id request resp berr q e evs, f.named = [id] ∧
    f.called = [(request, .ok (resp, berr))] ∧ IsRequest id request q ∧
    IsResponse id resp e ∧ Pairs id (toolUses resp) evs ∧ f.appended = q :: e :: evs

/-- What a beat comes to. -/
structure Ends (vm : Vm) (r : Except Lua Outcome) (f : Facts) : Prop where
  /-- Only an assertion of dev mode makes a beat raise. -/
  returned : vm.dev = false → ∃ o, r = .ok o
  /-- Nothing is appended where the reservation is refused, and the beat is
  stopped. -/
  refused : ∀ a, f.reserved = [.ok a] → a.1.truthy = false →
    f.appended = [] ∧ ∀ o, r = .ok o → o = .stopped "budget" a.2
  ok : ∀ out, r = .ok (.ok out) → Complete f

/-- No reservation was refused so far. -/
def NotRefused (f : Facts) : Prop := ∀ a, f.reserved = [.ok a] → a.1.truthy = true

theorem Reserved.notRefused (h : Reserved f) : NotRefused f := by
  obtain ⟨a, ha, htruthy⟩ := h
  intro b hb
  rw [ha] at hb
  cases hb
  exact htruthy

theorem ends_raise (hdev : vm.dev = true) (hno : NotRefused f) (v : Lua) :
    Ends vm (.error v) f where
  returned hprod := absurd (hdev.symm.trans hprod) nofun
  refused a ha hfalse := absurd ((hno a ha).symm.trans hfalse) nofun
  ok _ h := nomatch h

theorem ends_of_ne_ok (hno : NotRefused f) {o : Outcome} (ho : ∀ out, o ≠ .ok out) :
    Ends vm (.ok o) f where
  returned _ := ⟨o, rfl⟩
  refused a ha hfalse := absurd ((hno a ha).symm.trans hfalse) nofun
  ok out h := absurd (Except.ok.inj h) (ho out)

theorem runs_exit (hno : NotRefused f) {o : Outcome} (ho : ∀ out, o ≠ .ok out) :
    Runs device (Ends vm) (emit vm o) f :=
  runs_emit (ends_of_ne_ok hno ho) fun hdev => ends_raise hdev hno

/-- A kernel call that raised ends the beat. -/
theorem runs_state (hno : NotRefused f) (raised : Lua) :
    Runs device (Ends vm) (readError vm raised >>= fun detail => emit vm (.err "state" detail))
      f :=
  runs_bind_quiet (quiet_readError _) (fun _ => runs_exit hno nofun)
    fun hdev => ends_raise hdev hno

/-- Try to record an event, and go on with how that went. -/
theorem runs_tryRecord {α : Type} {Q : Except Lua α → Facts → Prop} {ev : Lua}
    {k : Except Lua (Lua × Lua) → ShellM α} (hG : Guard device f (.append ev))
    (hraise : ∀ v, Runs device Q (k (.error v)) f)
    (hok : ∀ a, Runs device Q (k (.ok a)) { f with appended := f.appended ++ [ev] }) :
    Runs device Q (pcall (recordEvent vm ev) >>= k) f :=
  runs_bind (runs_pcall (runs_recordEvent hG hraise hok))

/-- Try a call nothing is noted of. -/
theorem runs_tryQuiet {α : Type} {Q : Except Lua α → Facts → Prop} {op : BeatOp}
    {k : Except Lua (Lua × Lua) → ShellM α} (h : op.isQuiet = true)
    (hk : ∀ r, Runs device Q (k r) f) : Runs device Q (xpcall vm op >>= k) f := by
  refine runs_bind (runs_bind (runs_pcall (runs_call (guard_of_isQuiet h) fun a => ?_)))
  rw [note_of_isQuiet h]
  cases a with
  | error v => exact hk _
  | ok answer => exact hk _

/-! ### The tools -/

/-- A beat between two pairs: the planned blocks of `done` have theirs. -/
structure Running (vm : Vm) (device : Device) (id request resp berr : Lua)
    (planned done : List (Lua × Decision)) (f : Facts) : Prop where
  named : f.named = [id]
  reserved : Reserved f
  called : f.called = [(request, .ok (resp, berr))]
  written : ∃ q e evs, IsRequest id request q ∧ IsResponse id resp e ∧
    Pairs id (done.map Prod.fst) evs ∧ f.appended = q :: e :: evs
  earlier : ∀ c ∈ f.handled, c.1 < f.appended.length
  asked : device.toolPolicy = true → Asked vm planned f.asked

section Tools

variable {id request resp berr block : Lua} {decision : Decision}
  {planned done todo : List (Lua × Decision)}

/-- The pair of the next block can be written. -/
theorem Running.pair (h : Running vm device id request resp berr planned done f)
    {after : List Lua} (huses : toolUses resp = done.map Prod.fst ++ block :: after)
    {c r : Lua} (hc : IsToolCall id block c) (hr : IsToolResult id block r) :
    ∃ full, BeatRecord id full ∧ f.appended ++ [c] ++ [r] <+: full := by
  obtain ⟨q, e, evs, hq, he, hpairs, happ⟩ := h.written
  obtain ⟨more, hmore⟩ := hpairs.extend hc hr
  refine ⟨q :: e :: (evs ++ c :: r :: more), .answered hq he ?_, more, ?_⟩
  · rw [huses]
    exact hmore
  · rw [happ]
    simp

/-- With its pair written, a block is done. -/
theorem Running.advance (h : Running vm device id request resp berr planned done f)
    (decision : Decision) {c r : Lua} (hc : IsToolCall id block c) (hr : IsToolResult id block r)
    {hs : List (Nat × String × Lua)} (hhs : ∀ x ∈ hs, x.1 = (f.appended ++ [c]).length) :
    Running vm device id request resp berr planned (done ++ [(block, decision)])
      { f with appended := f.appended ++ [c] ++ [r], handled := f.handled ++ hs } where
  named := h.named
  reserved := h.reserved
  called := h.called
  written := by
    obtain ⟨q, e, evs, hq, he, hpairs, happ⟩ := h.written
    refine ⟨q, e, evs ++ [c, r], hq, he, ?_, by simp [happ]⟩
    rw [List.map_append]
    exact hpairs.append (.cons hc hr .nil)
  earlier := by
    intro x hx
    simp only [List.length_append, List.length_singleton] at hhs ⊢
    rcases List.mem_append.mp hx with hx | hx
    · have := h.earlier x hx
      omega
    · have := hhs x hx
      omega
  asked := h.asked

/-- What is done about a block is its handler, once, or nothing. -/
theorem runs_dispatch {Q : Except Lua (Bool × Lua) → Facts → Prop}
    (hG : decision = .run → ∀ name, block.get "name" = .str name →
      MayHandle device f name ((block.get "input").orElse (.table [] [])))
    (hQ : ∀ r hs, (∀ c ∈ hs, c.1 = f.appended.length) →
      Q r { f with handled := f.handled ++ hs }) :
    Runs device Q (dispatch vm device block decision) f := by
  have hskip : ∀ r, Q r f := fun r => by
    have h := hQ r [] nofun
    rwa [List.append_nil] at h
  -- a name that cannot be put in a text raises, wherever the text is built
  have hname : ∀ {Q : Except Lua String → Facts → Prop} {f : Facts}, (∀ r, Q r f) →
      Runs device Q (nameText vm (block.get "name")) f := by
    intro Q f hQ
    unfold nameText
    split
    · exact runs_pure (hQ _)
    · exact runs_pure (hQ _)
    · exact runs_raise (hQ _)
  have htext : ∀ {Q : Except Lua (Bool × Lua) → Facts → Prop} {f : Facts}
      (k : String → Bool × Lua), (∀ r, Q r f) →
      Runs device Q (nameText vm (block.get "name") >>= fun text => pure (k text)) f := by
    intro Q f k hQ
    refine runs_bind (hname fun r => ?_)
    cases r with
    | ok text => exact runs_pure (hQ _)
    | error v => exact hQ _
  cases decision with
  | deny reason => exact htext _ hskip
  | run =>
      unfold dispatch
      dsimp only
      split
      · exact htext _ hskip
      · next hhandles =>
        obtain ⟨name, hstr⟩ : ∃ name, block.get "name" = .str name := by
          unfold Device.handles at hhandles
          split at hhandles
          · exact ⟨_, ‹_›⟩
          · exact absurd rfl hhandles
        have hget : (block.get "name").asStr.getD "" = name := by
          rw [hstr]
          rfl
        rw [hget]
        generalize hargs : (block.get "input").orElse (.table [] []) = args at hG
        refine runs_bind (runs_pcall (runs_call (hG rfl name hstr) fun a => ?_))
        have hnoted : ∀ r, Q r (f.note (.handler name args) a) := fun r =>
          hQ r [_] fun c hc => by rw [List.mem_singleton.mp hc]
        cases a with
        | ok answer => exact runs_pure (hnoted _)
        | error raised => exact htext _ hnoted

/-- **The pairs are written one by one, each around its call.** -/
theorem runs_runPlanned {Q : Except Lua (List Lua) → Facts → Prop}
    (h : Running vm device id request resp berr planned done f)
    (hplanned : planned = done ++ todo) (huses : toolUses resp = planned.map Prod.fst)
    (hstop : ∀ v f', Reserved f' → Q (.error v) f')
    (hok : ∀ s f', Running vm device id request resp berr planned planned f' → Q (.ok s) f') :
    Runs device Q (runPlanned vm device id todo) f := by
  induction todo generalizing done f Q with
  | nil =>
      rw [List.append_nil] at hplanned
      subst hplanned
      exact runs_pure (hok _ _ h)
  | cons p todo ih =>
      obtain ⟨block, decision⟩ := p
      have hnext : toolUses resp = done.map Prod.fst ++ block :: todo.map Prod.fst := by
        rw [huses, hplanned, List.map_append, List.map_cons]
      have hcall := isToolCall_event id block
      refine runs_bind (runs_recordEvent ?_ (fun v => hstop v f h.reserved) fun _ => ?_)
      · obtain ⟨full, hfull, hpre⟩ :=
          h.pair hnext hcall (isToolResult_event id block true .nil)
        exact ⟨h.reserved, id, full, h.named, hfull, (List.prefix_append _ _).trans hpre⟩
      -- the call is in the log, so a tool that runs now has all that is asked of it
      refine runs_bind (runs_dispatch (fun hrun name hstr => ?_) fun r hs hhs => ?_)
      · obtain ⟨q, e, evs, hq, he, hpairs, happ⟩ := h.written
        refine ⟨id, request, resp, berr, q, e, evs, block, _, _, _, h.named, h.called, hnext,
          by rw [happ], hpairs, hcall, hstr, rfl, fun c hc => ?_, fun hpolicy => ?_⟩
        · have := h.earlier c hc
          rw [List.length_append]
          omega
        · have hasked := h.asked hpolicy
          refine ⟨hasked.blocks.trans huses.symm, hasked.keeps, ?_⟩
          subst hrun
          rw [hplanned] at hasked
          obtain ⟨a, hat, ha⟩ := hasked.at
          exact ⟨a, by rw [List.length_map]; exact hat, allows_of_decisionOf ha⟩
      · cases r with
        | error v => exact hstop v _ h.reserved
        | ok p =>
            obtain ⟨ok, result⟩ := p
            have hresult := isToolResult_event id block ok result
            refine runs_bind (runs_recordEvent ?_ (fun v => hstop v _ h.reserved) fun _ => ?_)
            · obtain ⟨full, hfull, hpre⟩ := h.pair hnext hcall hresult
              exact ⟨h.reserved, id, full, h.named, hfull, hpre⟩
            · refine runs_bind (ih (h.advance decision hcall hresult hhs)
                (by simp [hplanned])
                hstop fun s f' hf' => ?_)
              exact runs_pure (hok _ _ hf')

end Tools

/-! ### The call -/

/-- A beat whose request `q` is on record. -/
structure Sent (id request q : Lua) (f : Facts) : Prop where
  named : f.named = [id]
  reserved : Reserved f
  appended : f.appended = [q]
  isRequest : IsRequest id request q
  asked : f.asked = []
  handled : f.handled = []

section Call

variable {id request q resp berr : Lua}

/-- The blocks a loop over a content takes, and the calls among them. -/
theorem toolUses_of_ipairs {blocks : List Lua}
    (h : ((resp.get "content").orElse (.table [] [])).ipairs = .ok blocks) :
    toolUses resp = blocks.filter isToolUse := by
  unfold toolUses
  generalize resp.get "content" = content at h
  cases content with
  | bool b => cases b <;> cases h; rfl
  | nil | str | table => cases h; rfl
  | _ => cases h

/-- Every tool is decided, and then every tool is run. -/
theorem runs_executeTools {Q : Except Lua (Except Lua (List Lua)) → Facts → Prop} {e : Lua}
    (h : Sent id request q f) (hcalled : f.called = [(request, .ok (resp, berr))])
    (he : IsResponse id resp e)
    (hstop : ∀ r f', Reserved f' → (∀ summary, r ≠ .ok (.ok summary)) → Q r f')
    (hok : ∀ summary f', Reserved f' → Complete f' → Q (.ok (.ok summary)) f') :
    Runs device Q (executeTools vm device (resp.set "beat" id) id)
      { f with appended := f.appended ++ [e] } := by
  have hcontent : (resp.set "beat" id).get "content" = resp.get "content" :=
    Lua.get_set_of_ne (by decide)
  unfold executeTools
  rw [hcontent]
  refine runs_bind_done (fun blocks hblocks => ?_) fun v _ => hstop _ _ h.reserved nofun
  have huses := toolUses_of_ipairs hblocks
  refine runs_bind (runs_decideAll (fun r more hr => ?_) fun planned more hp hasked => ?_)
  · cases r with
    | error v => exact hstop _ _ h.reserved nofun
    | ok r =>
        cases r with
        | error problem => exact runs_pure (hstop _ _ h.reserved nofun)
        | ok planned => exact absurd rfl (hr planned)
  · have hrunning : Running vm device id request resp berr planned []
        { f with appended := f.appended ++ [e], asked := f.asked ++ more } :=
      { named := h.named
        reserved := h.reserved
        called := hcalled
        written := ⟨q, e, [], h.isRequest, he, .nil, by rw [h.appended]; rfl⟩
        earlier := fun c hc => by
          rw [h.handled] at hc
          exact absurd hc List.not_mem_nil
        asked := fun hpolicy => by
          rw [h.asked]
          exact hasked hpolicy }
    refine runs_bind (runs_runPlanned hrunning rfl (huses.trans hp.symm)
      (fun v f' hf' => hstop _ _ hf' nofun) fun summary f' hf' => ?_)
    obtain ⟨q', e', evs, hq', he', hpairs, happ⟩ := hf'.written
    refine runs_pure (hok _ _ hf'.reserved
      ⟨id, request, resp, berr, q', e', evs, hf'.named, hf'.called, hq', he', ?_, happ⟩)
    rw [huses, ← hp]
    exact hpairs

/-- A failed call is noted, and told apart from a note that could not be
taken. -/
theorem runs_callFailed (h : Sent id request q f) (reason raised : Lua) :
    Runs device (Ends vm) (callFailed vm id reason raised) f := by
  have hno := h.reserved.notRefused
  unfold callFailed
  refine runs_bind_quiet (quiet_assertDev _ _) (fun _ => ?_) fun hdev => ends_raise hdev hno
  refine runs_tryRecord ⟨h.reserved, id, _, h.named,
    .failed h.isRequest (isCallFailed_event id (callError vm reason raised)), ?_⟩
    (fun v => ?_) fun a => ?_
  · rw [h.appended]
    exact List.prefix_refl _
  · exact runs_bind_quiet (quiet_readError _) (fun _ => runs_exit hno nofun)
      fun hdev => ends_raise hdev hno
  · refine runs_exit ?_ nofun
    exact h.reserved.notRefused

/-- An answer is recorded before its tools run. -/
theorem runs_answered (h : Sent id request q f)
    (hcalled : f.called = [(request, .ok (resp, berr))]) :
    Runs device (Ends vm) (answered vm device id resp) f := by
  have he := isResponse_event id resp
  obtain ⟨more, hmore⟩ := exists_pairs id (toolUses resp)
  unfold answered
  refine runs_tryRecord ⟨h.reserved, id, _, h.named, .answered h.isRequest he hmore, ?_⟩
    (fun v => runs_state h.reserved.notRefused v) fun a => ?_
  · rw [h.appended]
    exact ⟨more, rfl⟩
  · dsimp only
    split
    · refine runs_exit ?_ nofun
      exact h.reserved.notRefused
    · refine runs_bind (runs_pcall (runs_executeTools h hcalled he
        (fun r f' hres hr => ?_) fun summary f' hres hdone => ?_))
      · cases r with
        | error raised => exact runs_state hres.notRefused raised
        | ok r =>
            cases r with
            | error problem => exact runs_exit hres.notRefused nofun
            | ok summary => exact absurd rfl (hr summary)
      · exact runs_emit
          { returned := fun _ => ⟨_, rfl⟩
            refused := fun a ha hfalse =>
              absurd ((hres.notRefused a ha).symm.trans hfalse) nofun
            ok := fun _ _ => hdone }
          fun hdev => ends_raise hdev hres.notRefused

end Call

/-- A reservation that was granted is followed by the request on record, and
that by the call. -/
theorem runs_callLlm {id : Lua} (request report : Lua) (hnamed : f.named = [id])
    (hres : Reserved f) (happ : f.appended = []) (hcalled : f.called = [])
    (hasked : f.asked = []) (hhandled : f.handled = []) :
    Runs device (Ends vm) (callLlm vm device id request report) f := by
  have hq := isRequest_event id request report
  unfold callLlm
  refine runs_tryRecord ⟨hres, id, _, hnamed,
    .failed hq (isCallFailed_event id .nil), ?_⟩
    (fun v => runs_state hres.notRefused v) fun a => ?_
  · rw [happ]
    exact ⟨[_], rfl⟩
  · have hsent : ∀ answer, Sent id request (withBeat (llmRequestEvent request report) id)
        { f with
          appended := f.appended ++ [withBeat (llmRequestEvent request report) id]
          called := f.called ++ [(request, answer)] } := fun answer =>
      { named := hnamed, reserved := hres, appended := by rw [happ]; rfl, isRequest := hq,
        asked := hasked, handled := hhandled }
    refine runs_bind (runs_bind (runs_pcall (runs_call
      ⟨hcalled, hres, id, _, hnamed, by rw [happ]; rfl, hq⟩ fun answer => ?_)))
    cases answer with
    | error raised => exact runs_callFailed (hsent (.error raised)) _ _
    | ok answer =>
        obtain ⟨resp, berr⟩ := answer
        refine runs_pure ?_
        dsimp only
        generalize (if resp.isTable = true then llmContractViolation vm resp
          else berr.orElse (llmContractViolation vm resp)) = reason
        split
        · have honce : f.called ++ [(request, .ok (resp, berr))] =
              [(request, .ok (resp, berr))] := by rw [hcalled, List.nil_append]
          exact runs_answered (hsent (.ok (resp, berr))) honce
        · exact runs_callFailed (hsent (.ok (resp, berr))) _ _

/-- Nothing was recorded when the reservation is asked for. -/
theorem runs_reserveAndCall {id : Lua} (request report : Lua) :
    Runs device (Ends vm) (reserveAndCall vm device id request report) { named := [id] } := by
  have hno : NotRefused { named := [id] } := nofun
  unfold reserveAndCall
  refine runs_tryQuiet rfl fun r => ?_
  cases r with
  | error caught => exact runs_exit hno nofun
  | ok r =>
      obtain ⟨amount, _⟩ := r
      dsimp only
      split
      · exact runs_exit hno nofun
      · refine runs_bind (runs_pcall (runs_call ⟨rfl, rfl⟩ fun a => ?_))
        cases a with
        | error raised =>
            have hno : NotRefused { named := [id], reserved := [.error raised] } := by
              rintro a ⟨⟩
            exact runs_state hno raised
        | ok answer =>
            obtain ⟨granted, tag⟩ := answer
            dsimp only
            split
            next hfalse =>
              -- refused: nothing was written, and the tag is the session's
              refine runs_emit ⟨fun _ => ⟨_, rfl⟩, fun a ha _ => ⟨rfl, fun o ho => ?_⟩, nofun⟩
                fun hdev v => ⟨fun hprod => ?_, fun a ha _ => ⟨rfl, nofun⟩, nofun⟩
              · cases ha
                cases ho
                rfl
              · exact absurd (hdev.symm.trans hprod) nofun
            next htrue =>
              exact runs_callLlm _ _ rfl ⟨_, rfl, by simpa using htrue⟩ rfl rfl rfl rfl

theorem runs_filterChain {Q : Except Lua (Except Outcome Lua) → Facts → Prop}
    (is : List Nat) (request : Lua) (herr : ∀ kind detail, Q (.ok (.error (.err kind detail))) f)
    (hok : ∀ request, Q (.ok (.ok request)) f) :
    Runs device Q (filterChain vm is request) f := by
  induction is generalizing request with
  | nil => exact runs_pure (hok _)
  | cons i rest ih =>
      refine runs_tryQuiet rfl fun r => ?_
      cases r with
      | error caught => exact runs_pure (herr _ _)
      | ok r =>
          obtain ⟨filtered, _⟩ := r
          dsimp only
          split
          · exact runs_pure (herr _ _)
          · exact ih _

/-- A request is read, folded and filtered with nothing written. -/
theorem runs_buildRequest {Q : Except Lua (Except Outcome (Lua × Lua)) → Facts → Prop}
    (herr : ∀ kind detail, Q (.ok (.error (.err kind detail))) f)
    (hok : ∀ p, Q (.ok (.ok p)) f) (hraise : vm.dev = true → ∀ v, Q (.error v) f) :
    Runs device Q (buildRequest vm device) f := by
  unfold buildRequest
  refine runs_bind (runs_pcall (runs_call trivial fun a => ?_))
  rw [note_of_isQuiet rfl]
  cases a with
  | error raised =>
      exact runs_bind_quiet (quiet_readError _) (fun _ => runs_pure (herr _ _)) hraise
  | ok answer =>
      obtain ⟨events, truncated⟩ := answer
      dsimp only
      split
      · exact runs_pure (herr _ _)
      · refine runs_tryQuiet rfl fun r => ?_
        cases r with
        | error caught => exact runs_pure (herr _ _)
        | ok r =>
            obtain ⟨request, report⟩ := r
            refine runs_bind (runs_filterChain _ _ (fun kind detail => runs_pure (herr _ _))
              fun request => ?_)
            exact runs_bind_quiet (quiet_assertDev _ _) (fun _ => runs_pure (hok _)) hraise

/-! ### Every path of a beat -/

/-- **Every call of a beat is made where its guard holds**, and the beat ends
as its record says. -/
theorem beat_guarded (vm : Vm) (isSession isDevice : Bool) (device : Device) :
    Runs device (Ends vm) (beat vm isSession isDevice device) {} := by
  have hno : NotRefused {} := nofun
  unfold beat
  split
  · exact runs_exit hno nofun
  split
  · exact runs_exit hno nofun
  split
  · exact runs_exit hno nofun
  refine runs_bind (runs_pcall (runs_call rfl fun a => ?_))
  cases a with
  | error raised => exact runs_exit hno nofun
  | ok answer =>
      obtain ⟨beatId, _⟩ := answer
      dsimp only
      have hno : NotRefused { named := [beatId] } := nofun
      split
      · exact runs_exit hno nofun
      · refine runs_bind (runs_buildRequest (fun kind detail => runs_exit hno nofun)
          (fun p => runs_reserveAndCall _ _) fun hdev => ends_raise hdev hno)

/-- What is so at every point of a beat. -/
structure Legal (f : Facts) : Prop where
  record : f.appended = [] ∨
    ∃ id full, f.named = [id] ∧ BeatRecord id full ∧ f.appended <+: full
  /-- Nothing is written before the one reservation was granted. -/
  granted : f.appended ≠ [] → Reserved f
  reserved : f.reserved.length ≤ 1
  called : f.called.length ≤ 1
  /-- Between two handlers something was recorded. -/
  handled : f.handled.Pairwise fun c c' => c.1 < c'.1

theorem legal_init : Legal {} where
  record := Or.inl rfl
  granted h := absurd rfl h
  reserved := Nat.zero_le _
  called := Nat.zero_le _
  handled := .nil

/-- One call more, made where it may be. -/
theorem Legal.note {op : BeatOp} (h : Legal f) (hG : Guard device f op) (a : op.Ans) :
    Legal (f.note op a) := by
  cases op with
  | newBeatId =>
      -- a record has an id, so nothing is on record yet
      have happ : f.appended = [] := h.record.elim id fun ⟨_, _, hid, _⟩ => by
        have hnone : f.named = [] := hG
        rw [hnone] at hid
        cases hid
      cases a with
      | error v => exact h
      | ok a => exact ⟨Or.inl happ, h.granted, h.reserved, h.called, h.handled⟩
  | reserve amount =>
      obtain ⟨hres, happ⟩ := hG
      refine ⟨h.record, fun hne => absurd happ hne, ?_, h.called, h.handled⟩
      simp [Facts.note, hres]
  | append ev =>
      obtain ⟨hres, id, full, hid, hfull, hpre⟩ := hG
      cases a with
      | error v => exact h
      | ok a =>
          exact ⟨Or.inr ⟨id, full, hid, hfull, hpre⟩, fun _ => hres, h.reserved, h.called,
            h.handled⟩
  | llm request =>
      have hcalled : f.called = [] := hG.1
      refine ⟨h.record, h.granted, h.reserved, ?_, h.handled⟩
      simp [Facts.note, hcalled]
  | handler name args =>
      obtain ⟨_, _, _, _, _, _, _, _, _, _, _, _, _, _, _, _, _, _, _, hearlier, _⟩ := hG
      refine ⟨h.record, h.granted, h.reserved, h.called, List.pairwise_append.mpr
        ⟨h.handled, List.pairwise_singleton _ _, fun c hc c' hc' => ?_⟩⟩
      rw [List.mem_singleton.mp hc']
      exact hearlier c hc
  | toolPolicy block out => exact ⟨h.record, h.granted, h.reserved, h.called, h.handled⟩
  | _ => rwa [note_of_isQuiet rfl]

theorem Pairs.stamped {id : Lua} {blocks evs : List Lua} (h : Pairs id blocks evs) :
    ∀ ev ∈ evs, (ev.get "meta").get "beat" = id := by
  induction h with
  | nil => exact fun ev hev => absurd hev List.not_mem_nil
  | cons hc hr _ ih =>
      exact List.forall_mem_cons.mpr ⟨hc.beat, List.forall_mem_cons.mpr ⟨hr.beat, ih⟩⟩

theorem BeatRecord.stamped {id : Lua} {full : List Lua} (h : BeatRecord id full) :
    ∀ ev ∈ full, (ev.get "meta").get "beat" = id := by
  cases h with
  | failed hq he =>
      exact List.forall_mem_cons.mpr ⟨hq.beat, List.forall_mem_singleton.mpr he.beat⟩
  | answered hq he hevs =>
      exact List.forall_mem_cons.mpr
        ⟨hq.beat, List.forall_mem_cons.mpr ⟨he.beat, hevs.stamped⟩⟩

/-- Every event a beat appends carries its id. -/
theorem Legal.stamped (h : Legal f) :
    ∀ ev ∈ f.appended, f.named = [(ev.get "meta").get "beat"] := by
  intro ev hev
  rcases h.record with happ | ⟨id, full, hid, hfull, hpre⟩
  · rw [happ] at hev
    exact absurd hev List.not_mem_nil
  · rw [hid, hfull.stamped ev (hpre.subset hev)]

/-- **The trace of one beat**: on every path, whatever its parts answer and
wherever they fail, the record so far is a prefix of a legal one, every call was
made where it may be, and a beat that has ended ended as its record says. -/
theorem beat_trace (vm : Vm) (isSession isDevice : Bool) (device : Device)
    {tr : List (Performed Facts BeatOp BeatOp.Ans)}
    {q : Prog BeatOp BeatOp.Ans (Except Lua Outcome)} {f : Facts}
    (h : (beat vm isSession isDevice device).run.Seen Noted Alone {} tr q f) :
    Legal f ∧ (∀ ev ∈ f.appended, f.named = [(ev.get "meta").get "beat"]) ∧
      (∀ d ∈ tr, Guard device d.before d.op) ∧ ∀ r, q = .ret r → Ends vm r f := by
  have hguarded := beat_guarded vm isSession isDevice device
  have hlegal : Legal f := hguarded.keeps
    (fun _ _ a _ hG hnoted hlegal => by
      rw [show _ = _ from hnoted]
      exact hlegal.note hG a) h legal_init
  obtain ⟨hG, hq⟩ := hguarded.seen h
  refine ⟨hlegal, hlegal.stamped, hG, ?_⟩
  rintro r rfl
  exact hq

/-! ### One beat -/

/-- A device whose policy is asked, with one tool that can run. -/
def oneTool : Device where
  llm := true
  tools := some [("look", ⟨.nil, .nil, true⟩)]
  toolPolicy := true
  filters := 0
  system := .nil

/-- A model that calls the tool twice; the policy lets the first call run. -/
def oneToolReply : (op : BeatOp) → op.Ans
  | .newBeatId => .ok (.str "b1", .nil)
  | .cost _ => .ok (.num (.int 1), .nil)
  | .reserve _ => .ok (.bool true, .nil)
  | .llm _ => .ok (record [("status", .str "ok"), ("usage", array []),
      ("content", array [
        record [("type", .str "tool_use"), ("id", .str "c1"), ("name", .str "look")],
        record [("type", .str "tool_use"), ("id", .str "c2"), ("name", .str "leap")]])], .nil)
  | .toolPolicy block _ =>
      if (block.get "name").eq (.str "look") then .ok (.str "run", .nil)
      else .ok (.str "deny", .str "too high")
  | .handler _ _ => .error (.str "nothing to see")
  | _ => .ok (array [], .nil)

/-- The machine the run is on. -/
def prodVm : Vm := ⟨false, .nil, fun v => v.asStr.getD ""⟩

def oneToolAnswer (op : BeatOp) (f : Facts) : op.Ans × Facts :=
  (oneToolReply op, f.note op (oneToolReply op))

/-- The run of that beat: its outcome, and what was done. -/
def oneToolRun : Except Lua Outcome × Facts :=
  (beat prodVm true true oneTool).run.run oneToolAnswer {}

example : oneToolRun.2.appended.map (fun ev => ev.get "kind") =
    ["llm_request", "llm_response", "tool_call", "tool_result", "tool_call", "tool_result"].map
      Lua.str := by rfl

theorem beat_trace_of_one_tool :
    oneToolRun.2.appended.length = 6 ∧ oneToolRun.2.handled.length = 1 ∧
      Legal oneToolRun.2 ∧ Ends prodVm oneToolRun.1 oneToolRun.2 := by
  have hnoted : ∀ op f, Noted op f (oneToolAnswer op f).1 (oneToolAnswer op f).2 :=
    fun _ _ => rfl
  obtain ⟨tr, htr⟩ := Prog.seen_run hnoted (beat prodVm true true oneTool).run {}
  obtain ⟨hlegal, -, -, hends⟩ := beat_trace prodVm true true oneTool htr
  exact ⟨rfl, rfl, hlegal, hends _ rfl⟩

end AgentBlock.Shell
