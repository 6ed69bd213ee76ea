/-
AgentBlock/Bus/Served.lean

What holds of the bus in every order of steps.

`served_in_order` — events are taken out one at a time, in the order the channel
took them in, and each goes where the table says, which nothing changes once the
bus serves.

`one_answer` — no source hears twice, what it hears is what came of its own
event, and when the loop has ended no source is left waiting.
-/
import AgentBlock.Bus.Dispatcher
import Mathlib.Data.List.Nodup

namespace AgentBlock.Bus

variable {H F : Type} {decode : String → Option Json} {w w' : World H F}

/-! ### One step -/

namespace World

/-- **What a step does to the channel and to the sources**: one of ten things. -/
inductive Moves (decode : String → Option Json) (w : World H F) : World H F → Prop
  /-- The step is about other things. -/
  | aside {w' : World H F} (hserver : w'.server = w.server) (haccepted : w'.accepted = w.accepted)
      (hnext : w'.next = w.next) (hdispatched : w'.dispatched = w.dispatched)
      (hheard : w'.heard = w.heard) (hphase : w'.phase = w.phase)
      (hbus : w.phase = .parked ∨ w'.bus = w.bus) : Moves decode w w'
  | taken (hparked : w.phase = .parked) :
      Moves decode w { w with serving := true, phase := .polling }
  | refused (hexited : w.phase = .exited) (e : Posted) (he : e.ticket = w.next) :
      Moves decode w { w with next := w.next + 1, heard := deliverAck w.heard e .closed }
  | sent (hlive : w.phase ≠ .exited) (e : Posted) (he : e.ticket = w.next) :
      Moves decode w { w with
        next := w.next + 1, server := w.server.arrive e, accepted := w.accepted ++ [e] }
  | timedOut (hlive : w.phase ≠ .exited) (e : Posted) (he : e ∈ w.unsettled)
      (hawaited : e.awaited = true) :
      Moves decode w { w with heard := hear w.heard e.ticket .timeout }
  | nacked (hpolling : w.phase = .polling) (e : Posted) (rest : List Posted)
      (hbusy : w.server.busy = none) (hwaiting : w.server.waiting = e :: rest)
      (hkey : w.bus.lookup e.kind = none) :
      Moves decode w { w with
        server := { waiting := rest, served := w.server.served ++ [(e, nack e.kind)] }
        dispatched := w.dispatched ++ [(e, none)]
        phase := .polling
        heard := deliverAck w.heard e (ackOf (nack e.kind)) }
  | called (hpolling : w.phase = .polling) (e : Posted) (rest : List Posted)
      (key : HandlerKey H) (hbusy : w.server.busy = none)
      (hwaiting : w.server.waiting = e :: rest) (hkey : w.bus.lookup e.kind = some key) :
      Moves decode w { w with
        server := { w.server with waiting := rest, busy := some e }
        dispatched := w.dispatched ++ [(e, some key)]
        phase := .calling key }
  | entered (hcalling : w.phase = .calling .lua) (e : Posted) (hbusy : w.server.busy = some e) :
      Moves decode w { w with
        phase := .inside (w.isle.lookup e.kind)
        entered := w.entered ++ [(e, w.isle.lookup e.kind)] }
  | finished (e : Posted) (outcome : Outcome) (hbusy : w.server.busy = some e)
      (hallows : w.phase.allows outcome = true) :
      Moves decode w { w with
        server := { w.server with
          busy := none, served := w.server.served ++ [(e, outcome.result decode)] }
        phase := .polling
        heard := deliverAck w.heard e (ackOf (outcome.result decode)) }
  | ended (hparked : w.phase ≠ .parked) (hlive : w.phase ≠ .exited) : Moves decode w w.exit

theorem isParked_iff : w.isParked = true ↔ w.phase = .parked := by
  cases h : w.phase <;> simp [isParked, h]

theorem isExited_iff : w.isExited = true ↔ w.phase = .exited := by
  cases h : w.phase <;> simp [isExited, h]

theorem settle_eq_some {result : AckResult} : w.settle result = some w' ↔
    ∃ e, w.server.busy = some e ∧ w' = { w with
      server := { w.server with busy := none, served := w.server.served ++ [(e, result)] }
      phase := .polling
      heard := deliverAck w.heard e (ackOf result) } := by
  cases hbusy : w.server.busy with
  | none => simp [settle, hbusy]
  | some e => simp [settle, hbusy, Serial.finish, eq_comm]

/-- An iteration of the loop that takes an event out. -/
theorem moves_dispatch {e : Posted} {rest : List Posted} (hpolling : w.phase = .polling)
    (hbusy : w.server.busy = none) (hwaiting : w.server.waiting = e :: rest)
    (h : w.dispatch e { w.server with waiting := rest, busy := some e } = some w') :
    Moves decode w w' := by
  cases hkey : w.bus.lookup e.kind with
  | none =>
      simp only [dispatch, hkey] at h
      obtain ⟨e', he, rfl⟩ := settle_eq_some.mp h
      obtain rfl := Option.some.inj he
      exact .nacked hpolling e rest hbusy hwaiting hkey
  | some key =>
      simp only [dispatch, hkey] at h
      obtain rfl := Option.some.inj h
      exact .called hpolling e rest key hbusy hwaiting hkey

theorem moves_poll (h : w.poll = some w') : Moves decode w w' := by
  cases hphase : w.phase with
  | polling =>
      have hends : Moves decode w w.exit := .ended (by simp [hphase]) (by simp [hphase])
      simp only [poll, hphase] at h
      split at h
      · obtain rfl := Option.some.inj h
        exact hends
      · cases hstart : w.server.start with
        | none =>
            simp only [hstart] at h
            split at h
            · obtain rfl := Option.some.inj h
              exact hends
            · cases h
        | some server =>
            simp only [hstart] at h
            obtain ⟨e, rest, hbusy, hwaiting, rfl⟩ := Serial.start_eq_some.mp hstart
            exact moves_dispatch hphase hbusy hwaiting h
  | _ => simp [poll, hphase] at h

theorem moves_send {kind id : String} {payload metaValue : Json} {awaited : Bool}
    (h : w.send kind id payload metaValue awaited = some w') : Moves decode w w' := by
  simp only [send] at h
  split at h
  · cases h
  · split at h
    · rename_i hexited
      obtain rfl := Option.some.inj h
      exact .refused (isExited_iff.mp hexited) _ rfl
    · rename_i hexited
      split at h
      · obtain rfl := Option.some.inj h
        exact .sent (fun hphase => hexited (isExited_iff.mpr hphase)) _ rfl
      · cases h

theorem moves_register {slot : Slot} {f : F} {pending : List (Slot × F)} :
    Moves decode w ({ w with pending }.register slot f) := by
  rw [register]
  split
  · rename_i hparked
    exact .aside rfl rfl rfl rfl rfl rfl (.inl (isParked_iff.mp hparked))
  · exact .aside rfl rfl rfl rfl rfl rfl (.inr rfl)

theorem moves_serve : Moves decode w w.serve := by
  rw [serve]
  split
  · exact .aside rfl rfl rfl rfl rfl rfl (.inr rfl)
  · split
    · rename_i hparked
      exact .taken (isParked_iff.mp hparked)
    · exact .aside rfl rfl rfl rfl rfl rfl (.inr rfl)

theorem step_moves {a : Act F} (h : w.step decode a = some w') : Moves decode w w' := by
  cases a with
  | send kind id payload metaValue awaited => exact moves_send h
  | timeOut ticket =>
      simp only [step] at h
      split at h
      · rename_i e hfind
        split at h
        · cases h
        · rename_i hexited
          obtain rfl := Option.some.inj h
          have hsome := List.find?_some hfind
          simp only [Bool.and_eq_true] at hsome
          exact .timedOut (fun hphase => hexited (isExited_iff.mpr hphase)) e
            (List.mem_of_find?_eq_some hfind) hsome.1
      · cases h
  | load slot f =>
      obtain rfl := Option.some.inj h
      exact .aside rfl rfl rfl rfl rfl rfl (.inr rfl)
  | register i =>
      obtain ⟨r, -, rfl⟩ := Option.map_eq_some_iff.mp h
      exact moves_register
  | abandon i =>
      obtain ⟨r, -, rfl⟩ := Option.map_eq_some_iff.mp h
      exact .aside rfl rfl rfl rfl rfl rfl (.inr rfl)
  | serve =>
      obtain rfl := Option.some.inj h
      exact moves_serve
  | cancel =>
      obtain rfl := Option.some.inj h
      exact .aside rfl rfl rfl rfl rfl rfl (.inr rfl)
  | hangUp =>
      obtain rfl := Option.some.inj h
      exact .aside rfl rfl rfl rfl rfl rfl (.inr rfl)
  | poll => exact moves_poll h
  | enter =>
      simp only [step] at h
      split at h
      · rename_i e hcalling hbusy
        obtain rfl := Option.some.inj h
        exact .entered hcalling e hbusy
      · cases h
  | finish outcome =>
      simp only [step] at h
      split at h
      · rename_i hallows
        obtain ⟨e, hbusy, rfl⟩ := settle_eq_some.mp h
        exact .finished e outcome hbusy hallows
      · cases h
  | giveUp =>
      simp only [step] at h
      split at h
      · rename_i key hphase
        split at h
        · obtain rfl := Option.some.inj h
          exact .ended (by simp [hphase]) (by simp [hphase])
        · cases h
      · rename_i f hphase
        split at h
        · obtain rfl := Option.some.inj h
          exact .ended (by simp [hphase]) (by simp [hphase])
        · cases h
      · cases h

/-! ### The order of events -/

/-- What an event can come to, by where it went. -/
inductive Came (decode : String → Option Json) : Option (HandlerKey H) → String → AckResult → Prop
  | nacked (kind : String) : Came decode none kind (nack kind)
  | host (handler : H) (kind : String) (result : AckResult) :
      Came decode (some (.host handler)) kind result
  | lua (kind : String) (outcome : Outcome) (hlua : ∀ result, outcome ≠ .returned result) :
      Came decode (some .lua) kind (outcome.result decode)

/-- Which handler the loop is with. -/
inductive With (phase : Phase H F) : HandlerKey H → Prop
  | calling (key : HandlerKey H) (h : phase = .calling key) : With phase key
  | inside (f : Option F) (h : phase = .inside f) : With phase .lua
  | exited (key : HandlerKey H) (h : phase = .exited) : With phase key

/-- The invariant of the channel and of the loop. -/
structure InOrder (decode : String → Option Json) (w : World H F) : Prop where
  unbegun : w.phase = .parked → w.server.begun = []
  idle : w.phase = .polling → w.server.busy = none
  busy : ∀ e, w.server.busy = some e → ∃ key, w.bus.lookup e.kind = some key ∧ With w.phase key
  dispatched : w.dispatched = w.server.begun.map fun e => (e, w.bus.lookup e.kind)
  came : ∀ p ∈ w.server.served, Came decode (w.bus.lookup p.1.kind) p.1.kind p.2
  increasing : (w.accepted.map Posted.ticket).Pairwise (· < ·)
  below : ∀ e ∈ w.accepted, e.ticket < w.next

/-- What is allowed of a script's handler is not a plain value of the host. -/
theorem came_of_allows {key : HandlerKey H} {outcome : Outcome} (kind : String)
    (hwith : With w.phase key) (hallows : w.phase.allows outcome = true) :
    Came decode (some key) kind (outcome.result decode) := by
  have hlua : ∀ phase : Phase H F, With phase .lua → phase.allows outcome = true →
      ∀ result, outcome ≠ .returned result := by
    intro phase hphase hout result heq
    subst heq
    cases hphase with
    | calling _ h => simp [h, Phase.allows] at hout
    | inside f h => cases f <;> simp [h, Phase.allows] at hout
    | exited _ h => simp [h, Phase.allows] at hout
  cases key with
  | host handler => exact .host handler kind _
  | lua => exact .lua kind outcome (hlua _ hwith hallows)

theorem begun_of_busy {e : Posted} (h : w.server.busy = some e) :
    w.server.begun = w.server.served.map Prod.fst ++ [e] := by
  rw [Serial.begun, h]
  rfl

theorem begun_of_idle (h : w.server.busy = none) :
    w.server.begun = w.server.served.map Prod.fst := by
  rw [Serial.begun, h]
  exact List.append_nil _

theorem InOrder.aside (h : InOrder decode w) (hserver : w'.server = w.server)
    (haccepted : w'.accepted = w.accepted) (hnext : w'.next = w.next)
    (hdispatched : w'.dispatched = w.dispatched) (hphase : w'.phase = w.phase)
    (hbus : w.phase = .parked ∨ w'.bus = w.bus) : InOrder decode w' := by
  -- A bus that changes is parked, and has begun nothing.
  have hempty : w'.bus = w.bus ∨ w.server.begun = [] := by
    rcases hbus with hparked | hbus
    · exact .inr (h.unbegun hparked)
    · exact .inl hbus
  have hnone : w.server.begun = [] → w.server.busy = none ∧ w.server.served = [] := by
    intro hb
    rw [Serial.begun, List.append_eq_nil_iff, List.map_eq_nil_iff] at hb
    exact ⟨by simpa using hb.2, hb.1⟩
  refine ⟨?_, ?_, ?_, ?_, ?_, ?_, ?_⟩
  · rw [hserver, hphase]
    exact h.unbegun
  · rw [hserver, hphase]
    exact h.idle
  · intro e he
    rw [hserver] at he
    rcases hempty with hbus | hb
    · rw [hbus, hphase]
      exact h.busy e he
    · rw [(hnone hb).1] at he
      cases he
  · rw [hdispatched, h.dispatched, hserver]
    rcases hempty with hbus | hb
    · rw [hbus]
    · rw [hb]
      rfl
  · intro p hp
    rw [hserver] at hp
    rcases hempty with hbus | hb
    · rw [hbus]
      exact h.came p hp
    · rw [(hnone hb).2] at hp
      cases hp
  · rw [haccepted]
    exact h.increasing
  · rw [haccepted, hnext]
    exact h.below

theorem InOrder.taken (h : InOrder decode w) (hparked : w.phase = .parked) :
    InOrder decode { w with serving := true, phase := .polling } := by
  have hbegun := h.unbegun hparked
  have hbusy : w.server.busy = none := by
    rw [Serial.begun, List.append_eq_nil_iff] at hbegun
    simpa using hbegun.2
  refine { h with unbegun := ?_, idle := ?_, busy := ?_ }
  · intro hphase
    cases hphase
  · intro _
    exact hbusy
  · intro e he
    rw [hbusy] at he
    cases he

theorem InOrder.refused (h : InOrder decode w) (e : Posted) :
    InOrder decode { w with next := w.next + 1, heard := deliverAck w.heard e .closed } := by
  refine { h with below := ?_ }
  intro e' he'
  exact Nat.lt_succ_of_lt (h.below e' he')

theorem InOrder.sent (h : InOrder decode w) {e : Posted} (he : e.ticket = w.next) :
    InOrder decode { w with
      next := w.next + 1, server := w.server.arrive e, accepted := w.accepted ++ [e] } := by
  refine { h with increasing := ?_, below := ?_ }
  · rw [List.map_append, List.pairwise_append]
    refine ⟨h.increasing, List.pairwise_singleton _ _, ?_⟩
    intro n hn m hm
    obtain ⟨e', he', rfl⟩ := List.mem_map.mp hn
    obtain rfl := List.mem_singleton.mp hm
    rw [he]
    exact h.below e' he'
  · intro e' he'
    rcases List.mem_append.mp he' with he' | he'
    · exact Nat.lt_succ_of_lt (h.below e' he')
    · obtain rfl := List.mem_singleton.mp he'
      rw [he]
      exact Nat.lt_succ_self _

theorem InOrder.nacked (h : InOrder decode w) {e : Posted} {rest : List Posted}
    (hbusy : w.server.busy = none) (hkey : w.bus.lookup e.kind = none) :
    InOrder decode { w with
      server := { waiting := rest, served := w.server.served ++ [(e, nack e.kind)] }
      dispatched := w.dispatched ++ [(e, none)]
      phase := .polling
      heard := deliverAck w.heard e (ackOf (nack e.kind)) } := by
  have hbegun := begun_of_idle hbusy
  refine { h with unbegun := ?_, idle := ?_, busy := ?_, dispatched := ?_, came := ?_ }
  · intro hphase
    cases hphase
  · intro _
    rfl
  · intro e' he'
    cases he'
  · show w.dispatched ++ [(e, none)] = _
    rw [h.dispatched, hbegun]
    simp [Serial.begun, hkey]
  · intro p hp
    rcases List.mem_append.mp hp with hp | hp
    · exact h.came p hp
    · obtain rfl := List.mem_singleton.mp hp
      show Came decode (w.bus.lookup e.kind) e.kind (nack e.kind)
      rw [hkey]
      exact .nacked e.kind

theorem InOrder.called (h : InOrder decode w) {e : Posted} {rest : List Posted}
    {key : HandlerKey H} (hbusy : w.server.busy = none) (hkey : w.bus.lookup e.kind = some key) :
    InOrder decode { w with
      server := { w.server with waiting := rest, busy := some e }
      dispatched := w.dispatched ++ [(e, some key)]
      phase := .calling key } := by
  have hbegun := begun_of_idle hbusy
  refine { h with unbegun := ?_, idle := ?_, busy := ?_, dispatched := ?_ }
  · intro hphase
    cases hphase
  · intro hphase
    cases hphase
  · intro e' he'
    obtain rfl := Option.some.inj he'
    exact ⟨key, hkey, .calling key rfl⟩
  · show w.dispatched ++ [(e, some key)] = _
    rw [h.dispatched, hbegun]
    simp [Serial.begun, hkey]

theorem InOrder.entered (h : InOrder decode w) (hcalling : w.phase = .calling .lua)
    (e : Posted) :
    InOrder decode { w with
      phase := .inside (w.isle.lookup e.kind)
      entered := w.entered ++ [(e, w.isle.lookup e.kind)] } := by
  refine { h with unbegun := ?_, idle := ?_, busy := ?_ }
  · intro hphase
    cases hphase
  · intro hphase
    cases hphase
  · intro e' he'
    obtain ⟨key, hkey, hwith⟩ := h.busy e' he'
    refine ⟨key, hkey, ?_⟩
    rw [hcalling] at hwith
    cases hwith with
    | calling _ heq =>
        cases heq
        exact .inside _ rfl
    | inside _ heq => cases heq
    | exited _ heq => cases heq

theorem InOrder.finished (h : InOrder decode w) {e : Posted} {outcome : Outcome}
    (hbusy : w.server.busy = some e) (hallows : w.phase.allows outcome = true) :
    InOrder decode { w with
      server := { w.server with
        busy := none, served := w.server.served ++ [(e, outcome.result decode)] }
      phase := .polling
      heard := deliverAck w.heard e (ackOf (outcome.result decode)) } := by
  have hbegun := begun_of_busy hbusy
  obtain ⟨key, hkey, hwith⟩ := h.busy e hbusy
  refine { h with unbegun := ?_, idle := ?_, busy := ?_, dispatched := ?_, came := ?_ }
  · intro hphase
    cases hphase
  · intro _
    rfl
  · intro e' he'
    cases he'
  · show w.dispatched = _
    rw [h.dispatched, hbegun]
    simp [Serial.begun]
  · intro p hp
    rcases List.mem_append.mp hp with hp | hp
    · exact h.came p hp
    · obtain rfl := List.mem_singleton.mp hp
      show Came decode (w.bus.lookup e.kind) e.kind (outcome.result decode)
      rw [hkey]
      exact came_of_allows e.kind hwith hallows

theorem InOrder.ended (h : InOrder decode w) : InOrder decode w.exit := by
  refine { h with unbegun := ?_, idle := ?_, busy := ?_ }
  · intro hphase
    cases hphase
  · intro hphase
    cases hphase
  · intro e he
    obtain ⟨key, hkey, -⟩ := h.busy e he
    exact ⟨key, hkey, .exited key rfl⟩

/-- One step keeps the order. -/
theorem InOrder.moves (h : InOrder decode w) (hm : Moves decode w w') : InOrder decode w' := by
  cases hm with
  | aside hserver haccepted hnext hdispatched hheard hphase hbus =>
      exact h.aside hserver haccepted hnext hdispatched hphase hbus
  | taken hparked => exact h.taken hparked
  | refused hexited e he => exact h.refused e
  | sent hlive e he => exact h.sent he
  | timedOut hlive e he hawaited => exact { h with }
  | nacked hpolling e rest hbusy hwaiting hkey => exact h.nacked hbusy hkey
  | called hpolling e rest key hbusy hwaiting hkey => exact h.called hbusy hkey
  | entered hcalling e hbusy => exact h.entered hcalling e
  | finished e outcome hbusy hallows => exact h.finished hbusy hallows
  | ended hparked hlive => exact h.ended

/-- **The loop is a serial server**: a step is none, one or two steps of it. -/
theorem Moves.serial (hm : Moves decode w w') :
    ∃ acts, Steps.after Serial.step w.server acts = some w'.server ∧
      w'.accepted = w.accepted ++ Serial.arrivals acts := by
  have hnone : ∀ {v : World H F}, v.server = w.server → v.accepted = w.accepted →
      ∃ acts, Steps.after Serial.step w.server acts = some v.server ∧
        v.accepted = w.accepted ++ Serial.arrivals acts := by
    intro v hserver haccepted
    refine ⟨[], ?_, ?_⟩
    · rw [hserver]
      rfl
    · rw [haccepted]
      exact (List.append_nil _).symm
  cases hm with
  | aside hserver haccepted => exact hnone hserver haccepted
  | taken hparked => exact hnone rfl rfl
  | refused hexited e he => exact hnone rfl rfl
  | sent hlive e he => exact ⟨[.arrive e], rfl, rfl⟩
  | timedOut hlive e he hawaited => exact hnone rfl rfl
  | nacked hpolling e rest hbusy hwaiting hkey =>
      refine ⟨[.start, .finish (nack e.kind)], ?_, ?_⟩
      · simp [Steps.after, Serial.step, Serial.start, Serial.finish, hbusy, hwaiting]
      · exact (List.append_nil _).symm
  | called hpolling e rest key hbusy hwaiting hkey =>
      refine ⟨[.start], ?_, ?_⟩
      · simp [Steps.after, Serial.step, Serial.start, hbusy, hwaiting]
      · exact (List.append_nil _).symm
  | entered hcalling e hbusy => exact hnone rfl rfl
  | finished e outcome hbusy hallows =>
      refine ⟨[.finish (outcome.result decode)], ?_, ?_⟩
      · simp [Steps.after, Serial.step, Serial.finish, hbusy]
      · exact (List.append_nil _).symm
  | ended hparked hlive => exact hnone rfl rfl

/-- Any order of steps. -/
abbrev Reached (decode : String → Option Json) (w₀ w : World H F) : Prop :=
  Steps.Run (step decode) (fun _ _ => True) w₀ w

/-- The worlds there are. -/
def Possible (decode : String → Option Json) (w : World H F) : Prop :=
  ∃ capacity hostHandlers hostHandler autoServeBus,
    Reached decode (setupEventBus capacity hostHandlers hostHandler autoServeBus) w

theorem Possible.serial (h : Possible decode w) :
    ∃ acts, Steps.after Serial.step {} acts = some w.server ∧ w.accepted = Serial.arrivals acts := by
  obtain ⟨capacity, hostHandlers, hostHandler, autoServeBus, hrun⟩ := h
  refine Steps.Run.inv (I := fun v => ∃ acts, Steps.after Serial.step {} acts = some v.server ∧
    v.accepted = Serial.arrivals acts) ?_ ?_ hrun
  · exact ⟨[], rfl, rfl⟩
  · rintro v a v' ⟨acts, hafter, haccepted⟩ - hstep
    obtain ⟨more, hmore, hgrown⟩ := (step_moves hstep).serial
    refine ⟨acts ++ more, ?_, ?_⟩
    · rw [Steps.after_append, hafter]
      exact hmore
    · rw [hgrown, haccepted, Serial.arrivals_append]

theorem Possible.order (h : Possible decode w) : w.server.history = w.accepted := by
  obtain ⟨acts, hafter, haccepted⟩ := h.serial
  rw [Serial.history_eq hafter, haccepted]
  rfl

theorem Possible.inOrder (h : Possible decode w) : InOrder decode w := by
  obtain ⟨capacity, hostHandlers, hostHandler, autoServeBus, hrun⟩ := h
  refine Steps.Run.inv ?_ (fun v a v' hv _ hstep => hv.moves (step_moves hstep)) hrun
  refine ⟨fun _ => rfl, fun _ => rfl, ?_, rfl, ?_, List.Pairwise.nil, ?_⟩
  · intro e he
    cases he
  · intro p hp
    cases hp
  · intro e he
    cases he

/-- Once the bus serves, its table stays as it is. -/
theorem Moves.frozen (hm : Moves decode w w') (h : w.phase ≠ .parked) :
    w'.phase ≠ .parked ∧ w'.bus = w.bus := by
  cases hm with
  | aside hserver haccepted hnext hdispatched hheard hphase hbus =>
      refine ⟨hphase ▸ h, ?_⟩
      rcases hbus with hparked | hbus
      · exact absurd hparked h
      · exact hbus
  | taken hparked => exact absurd hparked h
  | refused hexited e he => exact ⟨h, rfl⟩
  | sent hlive e he => exact ⟨h, rfl⟩
  | timedOut hlive e he hawaited => exact ⟨h, rfl⟩
  | nacked hpolling e rest hbusy hwaiting hkey => exact ⟨by simp, rfl⟩
  | called hpolling e rest key hbusy hwaiting hkey => exact ⟨by simp, rfl⟩
  | entered hcalling e hbusy => exact ⟨by simp, rfl⟩
  | finished e outcome hbusy hallows => exact ⟨by simp, rfl⟩
  | ended hparked hlive => exact ⟨by simp [exit], rfl⟩

/-- Scripts wait for each registration, and register nothing once the bus serves. -/
def OneAtATime (w : World H F) : Act F → Prop
  | .load _ _ => w.phase = .parked ∧ w.pending = []
  | .abandon _ => False
  | .serve => w.pending = []
  | _ => True

end World

open World

/-! ### Two events for a script -/

/-- A script registers a function for one kind, and one for every other, and
serves. -/
def registered : World Unit String :=
  { setupEventBus 4 [] none false with
    bus := EventBus.register (EventBus.register {} .lua (.on "mesh")) .lua .onAny
    phase := .polling
    serving := true
    isle := Isle.load (Isle.load {} "f" (.on "mesh")) "h" .onAny
    told := [(.register (.on "mesh"), .ok ()), (.register .onAny, .ok ())]
    granted := [(.onAny, "h"), (.on "mesh", "f")] }

def oneEvent : Posted := ⟨0, "mesh", "e", .null, .null, true⟩

def otherEvent : Posted := ⟨1, "tick", "e'", .null, .null, true⟩

/-- Two events come; each is handled by its function.  The one function returns
nothing, and the other raises. -/
def handledTwo : World Unit String :=
  { registered with
    server := { served := [(oneEvent, .ok .null), (otherEvent, .error (.bus "isle error: no"))] }
    next := 2
    accepted := [oneEvent, otherEvent]
    dispatched := [(oneEvent, some .lua), (otherEvent, some .lua)]
    entered := [(oneEvent, some "f"), (otherEvent, some "h")]
    heard := [(0, .answered .null), (1, ackOf (.error (.bus "isle error: no")))] }

theorem run_registered : Steps.Run (World.step fun _ => none) World.OneAtATime
    (setupEventBus 4 [] none false) registered :=
  @Steps.Run.follow _ _ _ _ _ _ _
    [.load (.on "mesh") "f", .register 0, .load .onAny "h", .register 0, .serve] .init
    ⟨⟨rfl, rfl⟩, trivial, ⟨rfl, rfl⟩, trivial, rfl, trivial⟩ rfl

theorem run_handledTwo : Steps.Run (World.step fun _ => none) World.OneAtATime
    (setupEventBus 4 [] none false) handledTwo :=
  @Steps.Run.follow _ _ _ _ _ _ _ [.send "mesh" "e" .null .null true,
    .send "tick" "e'" .null .null true, .poll, .enter, .finish (.answered .nothing), .poll, .enter,
    .finish (.answered (.failed "no"))] run_registered
    ⟨trivial, trivial, trivial, trivial, trivial, trivial, trivial, trivial, trivial⟩ rfl

theorem possible_handledTwo : Possible (fun _ => none) handledTwo :=
  ⟨4, [], none, false, run_handledTwo.mono fun _ _ _ => trivial⟩

/-! ### In order -/

/-- **Events are handled one at a time and in order**: those taken out, and those
that wait, are those the channel took, in its order; each went where the table
says, and came to what that gives.  From the moment the bus serves, the table is
the same for good. -/
theorem served_in_order (h : Possible decode w) :
    w.server.served.map Prod.fst ++ w.server.busy.toList ++ w.server.waiting = w.accepted ∧
    (w.accepted.map Posted.ticket).Pairwise (· < ·) ∧
    w.dispatched = (w.server.served.map Prod.fst ++ w.server.busy.toList).map
      (fun e => (e, w.bus.lookup e.kind)) ∧
    (∀ p ∈ w.server.served, Came decode (w.bus.lookup p.1.kind) p.1.kind p.2) ∧
    (w.phase ≠ .parked → ∀ w', Reached decode w w' → w'.bus = w.bus) := by
  have hin := h.inOrder
  refine ⟨?_, hin.increasing, hin.dispatched, hin.came, ?_⟩
  · exact h.order
  · intro htaken w' hrun
    have hfrozen : w'.phase ≠ .parked ∧ w'.bus = w.bus := by
      refine Steps.Run.inv (I := fun v => v.phase ≠ .parked ∧ v.bus = w.bus) ⟨htaken, rfl⟩ ?_ hrun
      rintro v a v' ⟨hphase, hbus⟩ - hstep
      obtain ⟨hphase', hbus'⟩ := (step_moves hstep).frozen hphase
      exact ⟨hphase', hbus'.trans hbus⟩
    exact hfrozen.2

theorem served_in_order_two : handledTwo.server.served.map Prod.fst ++
    handledTwo.server.busy.toList ++ handledTwo.server.waiting = handledTwo.accepted ∧
    (handledTwo.accepted.map Posted.ticket).Pairwise (· < ·) :=
  ⟨(served_in_order possible_handledTwo).1, (served_in_order possible_handledTwo).2.1⟩

/-! ### What sources hear -/

/-- What one step adds to what was heard: each of it a `P`, and nobody heard
twice. -/
structure Adds (P : ℕ → Ack → Prop) (heard heard' : List (ℕ × Ack)) : Prop where
  once : (heard.map Prod.fst).Nodup → (heard'.map Prod.fst).Nodup
  old : ∀ p ∈ heard, p ∈ heard'
  new : ∀ p ∈ heard', p ∈ heard ∨ P p.1 p.2

namespace Adds

variable {P : ℕ → Ack → Prop} {heard heard' heard'' : List (ℕ × Ack)}

theorem refl : Adds P heard heard := ⟨id, fun _ => id, fun _ => .inl⟩

theorem trans (h : Adds P heard heard') (h' : Adds P heard' heard'') : Adds P heard heard'' := by
  refine ⟨fun hn => h'.once (h.once hn), fun p hp => h'.old p (h.old p hp), ?_⟩
  intro p hp
  rcases h'.new p hp with hp | hp
  · exact h.new p hp
  · exact .inr hp

theorem tickets (h : Adds P heard heard') {n : ℕ} (hn : n ∈ heard.map Prod.fst) :
    n ∈ heard'.map Prod.fst := by
  obtain ⟨p, hp, rfl⟩ := List.mem_map.mp hn
  exact List.mem_map_of_mem (h.old p hp)

theorem hear {ticket : ℕ} {ack : Ack} (hp : P ticket ack) :
    Adds P heard (Bus.hear heard ticket ack) := by
  rw [Bus.hear]
  split
  · exact refl
  · rename_i hnew
    refine ⟨?_, fun p hp => List.mem_append_left _ hp, ?_⟩
    · intro hn
      rw [List.map_append, List.nodup_append]
      refine ⟨hn, List.nodup_singleton _, ?_⟩
      intro n hmem m hm heq
      obtain rfl := List.mem_singleton.mp hm
      exact hnew (heq ▸ hmem)
    · intro p hmem
      rcases List.mem_append.mp hmem with hmem | hmem
      · exact .inl hmem
      · obtain rfl := List.mem_singleton.mp hmem
        exact .inr hp

theorem deliver {e : Posted} {ack : Ack} (hp : e.awaited = true → P e.ticket ack) :
    Adds P heard (deliverAck heard e ack) := by
  rw [deliverAck]
  split
  · rename_i hawaited
    exact hear (hp hawaited)
  · exact refl

theorem drop {events : List Posted} (hp : ∀ e ∈ events, e.awaited = true → P e.ticket .dropped) :
    Adds P heard (events.foldl (fun heard e => deliverAck heard e .dropped) heard) := by
  induction events generalizing heard with
  | nil => exact refl
  | cons e events ih =>
      refine (deliver (hp e List.mem_cons_self)).trans ?_
      exact ih fun e' he' => hp e' (List.mem_cons_of_mem _ he')

end Adds

theorem ticket_mem_hear {heard : List (ℕ × Ack)} {ticket : ℕ} {ack : Ack} :
    ticket ∈ (hear heard ticket ack).map Prod.fst := by
  rw [hear]
  split
  · assumption
  · simp

theorem ticket_mem_deliver {heard : List (ℕ × Ack)} {e : Posted} {ack : Ack}
    (h : e.awaited = true) : e.ticket ∈ (deliverAck heard e ack).map Prod.fst := by
  rw [deliverAck, if_pos h]
  exact ticket_mem_hear

theorem ticket_mem_drop {events : List Posted} {heard : List (ℕ × Ack)} :
    ∀ e ∈ events, e.awaited = true →
      e.ticket ∈ (events.foldl (fun heard e => deliverAck heard e .dropped) heard).map Prod.fst := by
  induction events generalizing heard with
  | nil =>
      intro e he
      cases he
  | cons e events ih =>
      intro e' he' hawaited
      rcases List.mem_cons.mp he' with rfl | he'
      · have hgrows : Adds (fun _ _ => True) (deliverAck heard e' .dropped)
            (events.foldl (fun heard e => deliverAck heard e .dropped)
              (deliverAck heard e' .dropped)) := .drop fun _ _ _ => trivial
        exact hgrows.tickets (ticket_mem_deliver hawaited)
      · exact ih e' he' hawaited

namespace World

/-- What the source of a ticket may hear, of all that was. -/
inductive OfTicket (w : World H F) (n : ℕ) : Ack → Prop
  /-- Its event came when the loop had ended. -/
  | closed (hexited : w.phase = .exited) (hnone : ∀ e ∈ w.accepted, e.ticket ≠ n) :
      OfTicket w n .closed
  /-- Its event was handled, with that result. -/
  | acked (e : Posted) (result : AckResult) (hserved : (e, result) ∈ w.server.served)
      (hticket : e.ticket = n) (hawaited : e.awaited = true) : OfTicket w n (ackOf result)
  /-- Its event was still there when the loop ended. -/
  | dropped (hexited : w.phase = .exited) (e : Posted) (he : e ∈ w.unsettled)
      (hticket : e.ticket = n) (hawaited : e.awaited = true) : OfTicket w n .dropped
  | timedOut (e : Posted) (he : e ∈ w.accepted) (hticket : e.ticket = n)
      (hawaited : e.awaited = true) : OfTicket w n .timeout

/-- What was heard once, may be heard. -/
theorem OfTicket.moves {n : ℕ} {ack : Ack} (h : OfTicket w n ack) (hm : Moves decode w w') :
    OfTicket w' n ack := by
  have hsame : ∀ {v : World H F}, v.server = w.server → v.accepted = w.accepted →
      (w.phase = .exited → v.phase = .exited) → OfTicket v n ack := by
    intro v hserver haccepted hphase
    cases h with
    | closed hexited hnone => exact .closed (hphase hexited) (haccepted ▸ hnone)
    | acked e result hserved hticket hawaited =>
        exact .acked e result (hserver ▸ hserved) hticket hawaited
    | dropped hexited e he hticket hawaited =>
        refine .dropped (hphase hexited) e ?_ hticket hawaited
        rw [unsettled, hserver]
        exact he
    | timedOut e he hticket hawaited => exact .timedOut e (haccepted ▸ he) hticket hawaited
  -- What is served and what was accepted only grows while the loop is there.
  have hgrown : ∀ {v : World H F}, w.phase ≠ .exited →
      (∀ p ∈ w.server.served, p ∈ v.server.served) → (∀ e ∈ w.accepted, e ∈ v.accepted) →
      OfTicket v n ack := by
    intro v hlive hserved haccepted
    cases h with
    | closed hexited hnone => exact absurd hexited hlive
    | acked e result hmem hticket hawaited =>
        exact .acked e result (hserved _ hmem) hticket hawaited
    | dropped hexited e he hticket hawaited => exact absurd hexited hlive
    | timedOut e he hticket hawaited => exact .timedOut e (haccepted e he) hticket hawaited
  cases hm with
  | aside hserver haccepted hnext hdispatched hheard hphase hbus =>
      refine hsame hserver haccepted ?_
      intro hexited
      rw [hphase, hexited]
  | taken hparked =>
      refine hsame rfl rfl ?_
      intro hexited
      rw [hparked] at hexited
      cases hexited
  | refused hexited e he => exact hsame rfl rfl id
  | sent hlive e he =>
      exact hgrown hlive (fun _ => id) fun e' he' => List.mem_append_left _ he'
  | timedOut hlive e he hawaited => exact hsame rfl rfl id
  | nacked hpolling e rest hbusy hwaiting hkey =>
      exact hgrown (by simp [hpolling]) (fun p hp => List.mem_append_left _ hp) fun _ => id
  | called hpolling e rest key hbusy hwaiting hkey =>
      exact hgrown (by simp [hpolling]) (fun _ => id) fun _ => id
  | entered hcalling e hbusy => exact hgrown (by simp [hcalling]) (fun _ => id) fun _ => id
  | finished e outcome hbusy hallows =>
      refine hgrown ?_ (fun p hp => List.mem_append_left _ hp) fun _ => id
      intro hexited
      simp [hexited, Phase.allows] at hallows
  | ended hparked hlive => exact hsame rfl rfl fun _ => rfl

/-- The invariant of the sources. -/
structure Hears (w : World H F) : Prop where
  once : (w.heard.map Prod.fst).Nodup
  below : ∀ p ∈ w.heard, p.1 < w.next
  ofTicket : ∀ p ∈ w.heard, OfTicket w p.1 p.2
  /-- Whoever awaits what is done with has heard. -/
  settled : ∀ e ∈ w.accepted, e.awaited = true → e ∉ w.unsettled →
    e.ticket ∈ w.heard.map Prod.fst
  ended : w.phase = .exited → ∀ e ∈ w.accepted, e.awaited = true →
    e.ticket ∈ w.heard.map Prod.fst

theorem mem_accepted_of_unsettled (horder : w.server.history = w.accepted) {e : Posted}
    (he : e ∈ w.unsettled) : e ∈ w.accepted := by
  rw [← horder, Serial.history, Serial.begun, List.append_assoc]
  exact List.mem_append_right _ he

theorem mem_accepted_of_busy (horder : w.server.history = w.accepted) {e : Posted}
    (he : w.server.busy = some e) : e ∈ w.accepted := by
  apply mem_accepted_of_unsettled horder
  rw [unsettled, he]
  exact List.mem_append_left _ (List.mem_singleton.mpr rfl)

/-- What a step lets sources hear is what they may hear. -/
theorem Moves.adds (hin : InOrder decode w) (horder : w.server.history = w.accepted)
    (hm : Moves decode w w') :
    Adds (fun n ack => OfTicket w' n ack ∧ n < w'.next) w.heard w'.heard := by
  cases hm with
  | aside hserver haccepted hnext hdispatched hheard hphase hbus =>
      rw [hheard]
      exact .refl
  | taken hparked => exact .refl
  | refused hexited e he =>
      refine .deliver fun _ => ⟨.closed hexited ?_, ?_⟩
      · intro e' he' heq
        have hlt := hin.below e' he'
        omega
      · show e.ticket < w.next + 1
        omega
  | sent hlive e he => exact .refl
  | timedOut hlive e he hawaited =>
      have hmem := mem_accepted_of_unsettled horder he
      exact .hear ⟨.timedOut e hmem rfl hawaited, hin.below e hmem⟩
  | nacked hpolling e rest hbusy hwaiting hkey =>
      have hmem : e ∈ w.accepted := by
        apply mem_accepted_of_unsettled horder
        rw [unsettled, hwaiting]
        exact List.mem_append_right _ List.mem_cons_self
      refine .deliver fun hawaited => ⟨.acked e _ ?_ rfl hawaited, hin.below e hmem⟩
      exact List.mem_append_right _ (List.mem_singleton.mpr rfl)
  | called hpolling e rest key hbusy hwaiting hkey => exact .refl
  | entered hcalling e hbusy => exact .refl
  | finished e outcome hbusy hallows =>
      refine .deliver fun hawaited => ⟨.acked e _ ?_ rfl hawaited, ?_⟩
      · exact List.mem_append_right _ (List.mem_singleton.mpr rfl)
      · exact hin.below e (mem_accepted_of_busy horder hbusy)
  | ended hparked hlive =>
      refine .drop fun e he hawaited => ⟨.dropped rfl e he rfl hawaited, ?_⟩
      exact hin.below e (mem_accepted_of_unsettled horder he)

/-- Whoever awaits an event that a step is done with has heard. -/
theorem Moves.settles (hm : Moves decode w w') {e : Posted} (he : e ∈ w'.accepted)
    (hawaited : e.awaited = true) (hdone : e ∉ w'.unsettled) :
    e ∈ w.accepted ∧ e ∉ w.unsettled ∨ e.ticket ∈ w'.heard.map Prod.fst := by
  cases hm with
  | aside hserver haccepted hnext hdispatched hheard hphase hbus =>
      rw [unsettled, hserver] at hdone
      exact .inl ⟨haccepted ▸ he, hdone⟩
  | taken hparked => exact .inl ⟨he, hdone⟩
  | refused hexited e' he' => exact .inl ⟨he, hdone⟩
  | sent hlive e' he' =>
      -- the new event waits, so it is not the one a step is done with
      have hother : e ∉ w.unsettled ∧ e ≠ e' := by
        have hparts : e ∉ w.server.busy.toList ++ (w.server.waiting ++ [e']) := hdone
        rw [← List.append_assoc, List.mem_append, List.mem_singleton, not_or] at hparts
        exact hparts
      rcases List.mem_append.mp he with he | he
      · exact .inl ⟨he, hother.1⟩
      · exact absurd (List.mem_singleton.mp he) hother.2
  | timedOut hlive e' he' hawaited' => exact .inl ⟨he, hdone⟩
  | nacked hpolling e' rest hbusy hwaiting hkey =>
      by_cases hsame : e = e'
      · subst hsame
        exact .inr (ticket_mem_deliver hawaited)
      · refine .inl ⟨he, ?_⟩
        intro hmem
        apply hdone
        rw [unsettled, hbusy, hwaiting] at hmem
        rcases List.mem_cons.mp hmem with heq | hmem
        · exact absurd heq hsame
        · exact hmem
  | called hpolling e' rest key hbusy hwaiting hkey =>
      refine .inl ⟨he, ?_⟩
      intro hmem
      apply hdone
      rw [unsettled, hbusy, hwaiting] at hmem
      exact hmem
  | entered hcalling e' hbusy => exact .inl ⟨he, hdone⟩
  | finished e' outcome hbusy hallows =>
      by_cases hsame : e = e'
      · subst hsame
        exact .inr (ticket_mem_deliver hawaited)
      · refine .inl ⟨he, ?_⟩
        intro hmem
        apply hdone
        rw [unsettled, hbusy] at hmem
        rcases List.mem_cons.mp hmem with heq | hmem
        · exact absurd heq hsame
        · exact hmem
  | ended hparked hlive => exact .inl ⟨he, hdone⟩

/-- One step keeps what holds of the sources. -/
theorem Hears.moves (h : Hears w) (hin : InOrder decode w)
    (horder : w.server.history = w.accepted) (hm : Moves decode w w') : Hears w' := by
  have hadds := hm.adds hin horder
  have hsettled : ∀ e ∈ w'.accepted, e.awaited = true → e ∉ w'.unsettled →
      e.ticket ∈ w'.heard.map Prod.fst := by
    intro e he hawaited hdone
    rcases hm.settles he hawaited hdone with ⟨hmem, hother⟩ | hheard
    · exact hadds.tickets (h.settled e hmem hawaited hother)
    · exact hheard
  refine ⟨hadds.once h.once, ?_, ?_, hsettled, ?_⟩
  · intro p hp
    -- tickets are handed out in order, so an old one is below the next
    have hnext : w.next ≤ w'.next := by
      cases hm with
      | aside hserver haccepted hnext => exact hnext.ge
      | refused => exact Nat.le_succ _
      | sent => exact Nat.le_succ _
      | _ => exact le_rfl
    rcases hadds.new p hp with hp | hp
    · exact (h.below p hp).trans_le hnext
    · exact hp.2
  · intro p hp
    rcases hadds.new p hp with hp | hp
    · exact (h.ofTicket p hp).moves hm
    · exact hp.1
  · intro hexited e he hawaited
    by_cases hdone : e ∈ w'.unsettled
    · -- The loop had ended before, or it ends now and drops what is left.
      cases hm with
      | aside hserver haccepted hnext hdispatched hheard hphase hbus =>
          rw [hheard]
          exact h.ended (hphase ▸ hexited) e (haccepted ▸ he) hawaited
      | refused _ => exact hadds.tickets (h.ended hexited e he hawaited)
      | sent hlive => exact absurd hexited hlive
      | timedOut hlive => exact absurd hexited hlive
      | ended hparked hlive => exact ticket_mem_drop e hdone hawaited
      | taken => cases hexited
      | nacked => cases hexited
      | called => cases hexited
      | entered => cases hexited
      | finished => cases hexited
    · exact hsettled e he hawaited hdone

theorem Possible.step {a : Act F} (h : Possible decode w) (hs : w.step decode a = some w') :
    Possible decode w' := by
  obtain ⟨capacity, hostHandlers, hostHandler, autoServeBus, hrun⟩ := h
  exact ⟨capacity, hostHandlers, hostHandler, autoServeBus, hrun.step trivial hs⟩

theorem Possible.hears (h : Possible decode w) : Hears w := by
  obtain ⟨capacity, hostHandlers, hostHandler, autoServeBus, hrun⟩ := h
  have hboth : Possible decode w ∧ Hears w := by
    refine Steps.Run.inv (I := fun v => Possible decode v ∧ Hears v) ?_ ?_ hrun
    · refine ⟨⟨_, _, _, _, .init⟩, List.nodup_nil, ?_, ?_, ?_, ?_⟩
      · intro p hp
        cases hp
      · intro p hp
        cases hp
      · intro e he
        cases he
      · intro _ e he
        cases he
    · rintro v a v' ⟨hpossible, hhears⟩ - hstep
      exact ⟨hpossible.step hstep,
        hhears.moves hpossible.inOrder hpossible.order (step_moves hstep)⟩
  exact hboth.2

end World

/-- **Every source hears once**: no ticket is answered twice, what is answered is
what came of the event of that ticket, whoever awaits an event that is done with
has heard, and when the loop has ended, everyone has. -/
theorem one_answer (h : Possible decode w) :
    (w.heard.map Prod.fst).Nodup ∧
    (∀ p ∈ w.heard, OfTicket w p.1 p.2) ∧
    (∀ e ∈ w.accepted, e.awaited = true → w.phase = .exited ∨ e ∉ w.unsettled →
      ∃ ack, (e.ticket, ack) ∈ w.heard) := by
  have hhears := h.hears
  refine ⟨hhears.once, hhears.ofTicket, ?_⟩
  intro e he hawaited hdone
  have hmem : e.ticket ∈ w.heard.map Prod.fst := by
    rcases hdone with hexited | hdone
    · exact hhears.ended hexited e he hawaited
    · exact hhears.settled e he hawaited hdone
  obtain ⟨p, hp, heq⟩ := List.mem_map.mp hmem
  refine ⟨p.2, ?_⟩
  rw [← heq]
  exact hp

theorem one_answer_two :
    handledTwo.accepted.Forall fun e => ∃ ack, (e.ticket, ack) ∈ handledTwo.heard := by
  have hall : ∀ e ∈ handledTwo.accepted, e.awaited = true := by decide
  refine List.forall_iff_forall_mem.mpr fun e he => ?_
  exact (one_answer possible_handledTwo).2.2 e he (hall e he) (.inr List.not_mem_nil)

end AgentBlock.Bus
