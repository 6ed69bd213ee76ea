/-
AgentBlock/Bus/Functions.lean

Which function of a script an event comes to.

`found_in_lua` — the dispatcher in Lua always finds one.

`granted_function` — it is the one whose registration was granted, as long as
scripts register one at a time and before the bus serves.

`refused_takes_over` — a registration that comes later is refused, and its
function handles the events of its kind from then on.
-/
import AgentBlock.Bus.Served

namespace AgentBlock.Bus

open World

variable {H F : Type} {decode : String → Option Json} {w w' : World H F}

/-! ### The functions in Lua -/

@[simp] theorem EventBus.at_register {bus : EventBus H} {key : HandlerKey H} {slot other : Slot} :
    (bus.register key slot).at other = if other = slot then some key else bus.at other := by
  cases slot with
  | on kind =>
      cases other with
      | on kind' => simp [register, EventBus.at, Function.update_apply]
      | onAny => simp [register, EventBus.at]
  | onAny => cases other <;> simp [register, EventBus.at]

@[simp] theorem Isle.at_load {isle : Isle F} {f : F} {slot other : Slot} :
    (isle.load f slot).at other = if other = slot then some f else isle.at other := by
  cases slot with
  | on kind =>
      cases other with
      | on kind' => simp [load, Isle.at, Function.update_apply]
      | onAny => simp [load, Isle.at]
  | onAny => cases other <;> simp [load, Isle.at]

theorem EventBus.lookup_eq (bus : EventBus H) (kind : String) :
    bus.lookup kind = (bus.at (.on kind)).orElse fun _ => bus.at .onAny := rfl

theorem Isle.lookup_eq (isle : Isle F) (kind : String) :
    isle.lookup kind = (isle.at (.on kind)).orElse fun _ => isle.at .onAny := rfl

namespace World

/-- What scripts registered, and what came of it, is as it was. -/
structure Frame (w w' : World H F) : Prop where
  bus : w'.bus = w.bus
  isle : w'.isle = w.isle
  pending : w'.pending = w.pending
  granted : w'.granted = w.granted
  entered : w'.entered = w.entered
  told : w'.told = w.told
  inside : w'.phase = w.phase ∨ ∀ f, w'.phase ≠ .inside f
  parked : w.phase = .parked → w'.phase = .parked

/-- **What a step does to the handlers**: one of seven things. -/
inductive Hands (w : World H F) (a : Act F) : World H F → Prop
  | aside {w' : World H F} (hframe : Frame w w') : Hands w a w'
  | taken (hparked : w.phase = .parked) :
      Hands w a { w with serving := true, phase := .polling }
  | abandoned (pending : List (Slot × F)) (hpending : ∀ r ∈ pending, r ∈ w.pending) :
      Hands w a { w with pending }
  | told (asked : Asked) (text : String) (pending : List (Slot × F))
      (hpending : ∀ r ∈ pending, r ∈ w.pending) :
      Hands w a { w with pending, told := w.told ++ [(asked, .error text)] }
  | loaded (slot : Slot) (f : F) (ha : a = .load slot f) :
      Hands w a { w with isle := w.isle.load f slot, pending := w.pending ++ [(slot, f)] }
  | granted (slot : Slot) (f : F) (hparked : w.phase = .parked) (hmem : (slot, f) ∈ w.pending)
      (pending : List (Slot × F)) (hpending : ∀ r ∈ pending, r ∈ w.pending) :
      Hands w a { w with
        pending
        bus := w.bus.register .lua slot
        told := w.told ++ [(.register slot, .ok ())]
        granted := (slot, f) :: w.granted }
  | entered (hcalling : w.phase = .calling .lua) (e : Posted) (hbusy : w.server.busy = some e) :
      Hands w a { w with
        phase := .inside (w.isle.lookup e.kind)
        entered := w.entered ++ [(e, w.isle.lookup e.kind)] }

theorem frame_exit (h : w.phase ≠ .parked) : Frame w w.exit :=
  ⟨rfl, rfl, rfl, rfl, rfl, rfl, .inr (by simp [exit]), fun hparked => absurd hparked h⟩

theorem frame_settle {result : AckResult} (hphase : w.phase ≠ .parked)
    (h : w.settle result = some w') : Frame w w' := by
  obtain ⟨e, -, rfl⟩ := settle_eq_some.mp h
  exact ⟨rfl, rfl, rfl, rfl, rfl, rfl, .inr (by simp), fun hparked => absurd hparked hphase⟩

theorem frame_poll (h : w.poll = some w') : Frame w w' := by
  simp only [poll] at h
  split at h
  · rename_i hpolling
    have htaken : w.phase ≠ .parked := by simp [hpolling]
    split at h
    · obtain rfl := Option.some.inj h
      exact frame_exit htaken
    · split at h
      · rename_i server hstart
        obtain ⟨e, -, hdispatch⟩ := Option.bind_eq_some_iff.mp h
        simp only [dispatch] at hdispatch
        split at hdispatch
        · obtain ⟨e', -, rfl⟩ := settle_eq_some.mp hdispatch
          exact ⟨rfl, rfl, rfl, rfl, rfl, rfl, .inr (by simp), fun hp => absurd hp htaken⟩
        · obtain rfl := Option.some.inj hdispatch
          exact ⟨rfl, rfl, rfl, rfl, rfl, rfl, .inr (by simp), fun hp => absurd hp htaken⟩
      · split at h
        · obtain rfl := Option.some.inj h
          exact frame_exit htaken
        · cases h
  · cases h

/-- The steps that leave the handlers alone. -/
def leavesHandlers : Act F → Bool
  | .send .. | .timeOut _ | .cancel | .hangUp | .poll | .finish _ | .giveUp => true
  | .load .. | .register _ | .abandon _ | .serve | .enter => false

theorem step_frame {a : Act F} (ha : leavesHandlers a = true) (h : w.step decode a = some w') :
    Frame w w' := by
  cases a with
  | send kind name payload metaValue awaited =>
      simp only [step, send] at h
      split at h
      · cases h
      · split at h
        · obtain rfl := Option.some.inj h
          exact ⟨rfl, rfl, rfl, rfl, rfl, rfl, .inl rfl, id⟩
        · split at h
          · obtain rfl := Option.some.inj h
            exact ⟨rfl, rfl, rfl, rfl, rfl, rfl, .inl rfl, id⟩
          · cases h
  | timeOut ticket =>
      simp only [step] at h
      split at h
      · split at h
        · cases h
        · obtain rfl := Option.some.inj h
          exact ⟨rfl, rfl, rfl, rfl, rfl, rfl, .inl rfl, id⟩
      · cases h
  | cancel =>
      obtain rfl := Option.some.inj h
      exact ⟨rfl, rfl, rfl, rfl, rfl, rfl, .inl rfl, id⟩
  | hangUp =>
      obtain rfl := Option.some.inj h
      exact ⟨rfl, rfl, rfl, rfl, rfl, rfl, .inl rfl, id⟩
  | poll => exact frame_poll h
  | finish outcome =>
      simp only [step] at h
      split at h
      · rename_i hallows
        refine frame_settle ?_ h
        intro hparked
        simp [hparked, Phase.allows] at hallows
      · cases h
  | giveUp =>
      simp only [step] at h
      split at h
      · rename_i hphase
        split at h
        · obtain rfl := Option.some.inj h
          exact frame_exit (by simp [hphase])
        · cases h
      · rename_i hphase
        split at h
        · obtain rfl := Option.some.inj h
          exact frame_exit (by simp [hphase])
        · cases h
      · cases h
  | _ => cases ha

theorem hands_serve {a : Act F} : Hands w a w.serve := by
  rw [serve]
  split
  · exact .told .serve _ w.pending fun _ => id
  · split
    · rename_i hparked
      exact .taken (isParked_iff.mp hparked)
    · exact .told .serve _ w.pending fun _ => id

theorem step_hands {a : Act F} (h : w.step decode a = some w') : Hands w a w' := by
  cases a with
  | load slot f =>
      obtain rfl := Option.some.inj h
      exact .loaded slot f rfl
  | register i =>
      obtain ⟨r, hr, rfl⟩ := Option.map_eq_some_iff.mp h
      rw [register]
      split
      · rename_i hparked
        exact @Hands.granted _ _ w _ r.1 r.2 (isParked_iff.mp hparked) (List.mem_of_getElem? hr)
          (w.pending.eraseIdx i) fun _ => List.mem_of_mem_eraseIdx
      · exact .told (.register r.1) _ (w.pending.eraseIdx i) fun _ => List.mem_of_mem_eraseIdx
  | abandon i =>
      obtain ⟨r, -, rfl⟩ := Option.map_eq_some_iff.mp h
      exact .abandoned (w.pending.eraseIdx i) fun _ => List.mem_of_mem_eraseIdx
  | serve =>
      obtain rfl := Option.some.inj h
      exact hands_serve
  | enter =>
      simp only [step] at h
      split at h
      · rename_i e hcalling hbusy
        obtain rfl := Option.some.inj h
        exact .entered hcalling e hbusy
      · cases h
  | _ => exact .aside (step_frame rfl h)

/-- The invariant of the two tables: a key of Lua has its function. -/
structure Backed (w : World H F) : Prop where
  keys : ∀ slot, w.bus.at slot = some .lua → (w.isle.at slot).isSome = true
  pending : ∀ r ∈ w.pending, (w.isle.at r.1).isSome = true
  entered : ∀ p ∈ w.entered, p.2.isSome = true
  inside : ∀ f, w.phase = .inside f → f.isSome = true

theorem Backed.lookup (h : Backed w) {kind : String} (hkey : w.bus.lookup kind = some .lua) :
    (w.isle.lookup kind).isSome = true := by
  rw [Isle.lookup_eq]
  rw [EventBus.lookup_eq] at hkey
  cases hon : w.bus.at (.on kind) with
  | none =>
      rw [hon] at hkey
      have hany := h.keys .onAny hkey
      cases hfirst : w.isle.at (.on kind) with
      | none => exact hany
      | some f => rfl
  | some key =>
      rw [hon] at hkey
      obtain rfl := Option.some.inj hkey
      obtain ⟨f, hf⟩ := Option.isSome_iff_exists.mp (h.keys _ hon)
      rw [hf]
      rfl

/-- The event that is with the handler of Lua is one of Lua's. -/
theorem lookup_of_calling (hin : InOrder decode w) (hcalling : w.phase = .calling .lua)
    {e : Posted} (hbusy : w.server.busy = some e) : w.bus.lookup e.kind = some .lua := by
  obtain ⟨key, hkey, hwith⟩ := hin.busy e hbusy
  rw [hcalling] at hwith
  cases hwith with
  | calling _ heq =>
      cases heq
      exact hkey
  | inside _ heq => cases heq
  | exited _ heq => cases heq

theorem Backed.hands (h : Backed w) {a : Act F} (hin : InOrder decode w) (hh : Hands w a w') :
    Backed w' := by
  cases hh with
  | aside hframe =>
      refine ⟨?_, ?_, ?_, ?_⟩
      · rw [hframe.bus, hframe.isle]
        exact h.keys
      · rw [hframe.isle, hframe.pending]
        exact h.pending
      · rw [hframe.entered]
        exact h.entered
      · intro f hf
        rcases hframe.inside with hphase | hphase
        · exact h.inside f (hphase ▸ hf)
        · exact absurd hf (hphase f)
  | taken hparked => exact { h with inside := fun f hf => by cases hf }
  | abandoned pending hpending =>
      exact { h with pending := fun r hr => h.pending r (hpending r hr) }
  | told asked text pending hpending =>
      exact { h with pending := fun r hr => h.pending r (hpending r hr) }
  | loaded slot f ha =>
      have hmore : ∀ other, (w.isle.at other).isSome = true →
          ((w.isle.load f slot).at other).isSome = true := by
        intro other hsome
        rw [Isle.at_load]
        split
        · rfl
        · exact hsome
      refine { h with keys := ?_, pending := ?_ }
      · exact fun other hkey => hmore other (h.keys other hkey)
      · intro r hr
        rcases List.mem_append.mp hr with hr | hr
        · exact hmore _ (h.pending r hr)
        · obtain rfl := List.mem_singleton.mp hr
          simp
  | granted slot f hparked hmem pending hpending =>
      refine { h with keys := ?_, pending := ?_ }
      · intro other hkey
        -- the new key was loaded before it was asked for, the others are as before
        have hkey' : (w.bus.register .lua slot).at other = some .lua := hkey
        rw [EventBus.at_register] at hkey'
        split at hkey'
        · rename_i heq
          rw [heq]
          exact h.pending _ hmem
        · exact h.keys other hkey'
      · exact fun r hr => h.pending r (hpending r hr)
  | entered hcalling e hbusy =>
      -- the event was routed to Lua, so its slot holds a function
      have hsome := h.lookup (lookup_of_calling hin hcalling hbusy)
      refine { h with entered := ?_, inside := ?_ }
      · intro p hp
        rcases List.mem_append.mp hp with hp | hp
        · exact h.entered p hp
        · obtain rfl := List.mem_singleton.mp hp
          exact hsome
      · intro f hf
        cases hf
        exact hsome

/-- A host registers no function of Lua. -/
theorem at_setupEventBus (capacity : ℕ) (hostHandlers : List (String × H))
    (hostHandler : Option H) (autoServeBus : Bool) (slot : Slot) :
    (setupEventBus (F := F) capacity hostHandlers hostHandler autoServeBus).bus.at slot ≠
      some .lua := by
  have hfold : ∀ (hs : List (String × H)) (bus : EventBus H),
      (∀ slot, bus.at slot ≠ some .lua) → ∀ slot,
        (hs.foldl (fun bus h => bus.register (.host h.2) (.on h.1)) bus).at slot ≠ some .lua := by
    intro hs
    induction hs with
    | nil => exact fun bus h => h
    | cons h hs ih =>
        intro bus hbus
        refine ih _ fun other => ?_
        rw [EventBus.at_register]
        split
        · simp
        · exact hbus other
  have hhosts := hfold hostHandlers {} (by intro slot; cases slot <;> simp [EventBus.at])
  cases hostHandler with
  | none => exact hhosts slot
  | some handler =>
      show ((EventBus.register _ (.host handler) .onAny).at slot) ≠ _
      rw [EventBus.at_register]
      split
      · simp
      · exact hhosts slot

theorem Possible.backed (h : Possible decode w) : Backed w := by
  obtain ⟨capacity, hostHandlers, hostHandler, autoServeBus, hrun⟩ := h
  have hboth : Possible decode w ∧ Backed w := by
    refine Steps.Run.inv (I := fun v => Possible decode v ∧ Backed v) ?_ ?_ hrun
    · refine ⟨⟨_, _, _, _, .init⟩, ?_, ?_, ?_, ?_⟩
      · intro slot hkey
        exact absurd hkey (at_setupEventBus _ _ _ _ slot)
      · intro r hr
        cases hr
      · intro p hp
        cases hp
      · intro f hf
        simp only [setupEventBus] at hf
        split at hf <;> cases hf
    · rintro v a v' ⟨hpossible, hbacked⟩ - hstep
      exact ⟨hpossible.step hstep, hbacked.hands hpossible.inOrder (step_hands hstep)⟩
  exact hboth.2

end World

/-- **An event that comes to Lua finds its function**: the dispatcher there never
raises that there is none, in whatever order scripts register, serve and stop. -/
theorem found_in_lua (h : Possible decode w) :
    (∀ p ∈ w.entered, p.2.isSome = true) ∧ ∀ f, w.phase = .inside f → f.isSome = true :=
  ⟨h.backed.entered, h.backed.inside⟩

theorem found_in_lua_two : handledTwo.entered.Forall fun p => p.2.isSome = true :=
  List.forall_iff_forall_mem.mpr (found_in_lua possible_handledTwo).1

/-! ### Which function -/

/-- The slot an event's handler is in. -/
def EventBus.slotOf (bus : EventBus H) (kind : String) : Slot :=
  if (bus.at (.on kind)).isSome then .on kind else .onAny

namespace World

/-- The function of a slot, of the last registration that was granted. -/
def grantedAt (w : World H F) (slot : Slot) : Option F :=
  (w.granted.find? fun r => r.1 = slot).map Prod.snd

theorem grantedAt_cons {slot other : Slot} {f : F} {granted : List (Slot × F)}
    (h : w'.granted = (slot, f) :: granted) (h' : w.granted = granted) :
    w'.grantedAt other = if other = slot then some f else w.grantedAt other := by
  rw [grantedAt, grantedAt, h, h', List.find?_cons]
  by_cases heq : other = slot
  · simp [heq]
  · have hne : ¬ slot = other := fun hs => heq hs.symm
    simp [heq, hne]

/-- The invariant of scripts that register one at a time: what is in Lua is what
was granted, but for the function that is on its way. -/
structure Agrees (w : World H F) : Prop where
  keys : ∀ slot, w.bus.at slot = some .lua ↔ (w.grantedAt slot).isSome = true
  isle : w.pending = [] → ∀ slot, w.isle.at slot = w.grantedAt slot
  onItsWay : ∀ r ∈ w.pending, w.phase = .parked ∧ w.pending = [r] ∧
    ∀ slot, w.isle.at slot = if slot = r.1 then some r.2 else w.grantedAt slot
  unentered : w.phase = .parked → w.entered = []
  entered : ∀ p ∈ w.entered, p.2 = w.grantedAt (w.bus.slotOf p.1.kind)

theorem Agrees.pending_nil (h : Agrees w) (htaken : w.phase ≠ .parked) : w.pending = [] := by
  cases hpending : w.pending with
  | nil => rfl
  | cons r rest =>
      have hr : r ∈ w.pending := by
        rw [hpending]
        exact List.mem_cons_self
      exact absurd (h.onItsWay r hr).1 htaken

/-- The function the dispatcher in Lua finds is that of the slot the bus found. -/
theorem Agrees.lookup (h : Agrees w) (htaken : w.phase ≠ .parked) {kind : String}
    (hkey : w.bus.lookup kind = some .lua) :
    w.isle.lookup kind = w.grantedAt (w.bus.slotOf kind) := by
  have hnone := h.pending_nil htaken
  rw [Isle.lookup_eq, h.isle hnone, h.isle hnone, EventBus.slotOf]
  rw [EventBus.lookup_eq] at hkey
  cases hon : w.bus.at (.on kind) with
  | none =>
      cases hgranted : w.grantedAt (.on kind) with
      | none => rfl
      | some f =>
          have hlua := (h.keys (.on kind)).mpr (by rw [hgranted]; rfl)
          rw [hon] at hlua
          cases hlua
  | some key =>
      rw [hon] at hkey
      obtain rfl := Option.some.inj hkey
      obtain ⟨f, hf⟩ := Option.isSome_iff_exists.mp ((h.keys (.on kind)).mp hon)
      simp [hf]

/-- What leaves the handlers alone keeps their agreement. -/
theorem Agrees.frame (h : Agrees w) (hframe : Frame w w')
    (hparked : w'.phase = .parked → w.phase = .parked) : Agrees w' := by
  have hat : ∀ slot, w'.grantedAt slot = w.grantedAt slot := by
    intro slot
    rw [grantedAt, grantedAt, hframe.granted]
  refine ⟨?_, ?_, ?_, ?_, ?_⟩
  · intro slot
    rw [hframe.bus, hat]
    exact h.keys slot
  · intro hnone slot
    rw [hframe.isle, hat]
    exact h.isle (hframe.pending ▸ hnone) slot
  · intro r hr
    rw [hframe.pending] at hr
    obtain ⟨hp, hone, hload⟩ := h.onItsWay r hr
    refine ⟨hframe.parked hp, hframe.pending.trans hone, ?_⟩
    intro slot
    rw [hframe.isle, hat]
    exact hload slot
  · intro hp
    rw [hframe.entered]
    exact h.unentered (hparked hp)
  · intro p hp
    rw [hat, hframe.bus]
    exact h.entered p (hframe.entered ▸ hp)

/-- One step of scripts that register one at a time. -/
theorem Agrees.step {a : Act F} (h : Agrees w) (hin : InOrder decode w) (hφ : w.OneAtATime a)
    (hs : w.step decode a = some w') : Agrees w' := by
  have hparked : w'.phase = .parked → w.phase = .parked := by
    intro hp
    by_contra hne
    exact ((step_moves hs).frozen hne).1 hp
  cases a with
  | load slot f =>
      -- nothing is on its way, so the slot is now ahead of the bus by this one function
      obtain ⟨hp, hnone⟩ := hφ
      obtain rfl := Option.some.inj hs
      refine ⟨h.keys, ?_, ?_, h.unentered, h.entered⟩
      · intro hempty
        simp at hempty
      · intro r hr
        rw [hnone] at hr ⊢
        obtain rfl := List.mem_singleton.mp hr
        refine ⟨hp, rfl, ?_⟩
        intro other
        rw [Isle.at_load, h.isle hnone]
        rfl
  | register i =>
      obtain ⟨r, hr, rfl⟩ := Option.map_eq_some_iff.mp hs
      -- the one registration on its way is granted, and the two agree again
      obtain ⟨hp, hone, hload⟩ := h.onItsWay r (List.mem_of_getElem? hr)
      have herase : w.pending.eraseIdx i = [] := by
        rw [hone] at hr ⊢
        cases i with
        | zero => rfl
        | succ i => simp at hr
      have hat : ∀ slot, ({ w with pending := [] }.register r.1 r.2).grantedAt slot =
          if slot = r.1 then some r.2 else w.grantedAt slot := by
        intro slot
        have htrue : ({ w with pending := [] } : World H F).isParked = true := isParked_iff.mpr hp
        rw [register, if_pos htrue]
        exact grantedAt_cons rfl rfl
      rw [herase] at hparked ⊢
      have htrue : ({ w with pending := [] } : World H F).isParked = true := isParked_iff.mpr hp
      refine ⟨?_, ?_, ?_, ?_, ?_⟩
      · intro slot
        rw [hat, register, if_pos htrue]
        show (w.bus.register .lua r.1).at slot = some .lua ↔ _
        rw [EventBus.at_register]
        split
        · simp
        · exact h.keys slot
      · intro hnone slot
        rw [hat, register, if_pos htrue]
        exact hload slot
      · intro r' hr'
        rw [register, if_pos htrue] at hr'
        cases hr'
      · intro _
        rw [register, if_pos htrue]
        exact h.unentered hp
      · intro p hmem
        rw [register, if_pos htrue] at hmem
        have hnone := h.unentered hp
        rw [show p ∈ w.entered ↔ False by rw [hnone]; simp] at hmem
        exact hmem.elim
  | abandon i => exact hφ.elim
  | serve =>
      obtain rfl := Option.some.inj hs
      have hnone : w.pending = [] := hφ
      rw [serve] at hparked ⊢
      split
      · exact ⟨h.keys, h.isle, h.onItsWay, h.unentered, h.entered⟩
      · split
        · refine ⟨h.keys, h.isle, ?_, ?_, h.entered⟩
          · intro r hr
            have hr' : r ∈ w.pending := hr
            rw [hnone] at hr'
            cases hr'
          · intro hp
            cases hp
        · exact ⟨h.keys, h.isle, h.onItsWay, h.unentered, h.entered⟩
  | enter =>
      simp only [World.step] at hs
      split at hs
      · rename_i e hcalling hbusy
        obtain rfl := Option.some.inj hs
        -- the bus is taken, so nothing is on its way and the function found is the granted one
        have htaken : w.phase ≠ .parked := by simp [hcalling]
        have hkey := lookup_of_calling hin hcalling hbusy
        have hnone := h.pending_nil htaken
        refine ⟨h.keys, h.isle, ?_, ?_, ?_⟩
        · intro r hr
          have hr' : r ∈ w.pending := hr
          rw [hnone] at hr'
          cases hr'
        · intro hp
          cases hp
        · intro p hp
          rcases List.mem_append.mp hp with hp | hp
          · exact h.entered p hp
          · obtain rfl := List.mem_singleton.mp hp
            exact h.lookup htaken hkey
      · cases hs
  | _ => exact h.frame (step_frame rfl hs) hparked

theorem agrees_setupEventBus (capacity : ℕ) (hostHandlers : List (String × H))
    (hostHandler : Option H) (autoServeBus : Bool) :
    Agrees (setupEventBus (F := F) capacity hostHandlers hostHandler autoServeBus) := by
  refine ⟨?_, ?_, ?_, fun _ => rfl, ?_⟩
  · intro slot
    exact iff_of_false (at_setupEventBus _ _ _ _ slot) (by simp [setupEventBus, grantedAt])
  · intro _ slot
    cases slot <;> rfl
  · intro r hr
    cases hr
  · intro p hp
    cases hp

end World

/-- **The function that was granted**: when scripts wait for each registration,
give up none, serve while none is on its way and register nothing once the bus
serves, an event that comes to Lua is handled by the function of the last
registration that was granted for its slot.  A function is loaded before the bus
is asked, so a registration that is refused, given up or overtaken has replaced it
all the same. -/
theorem granted_function {capacity : ℕ} {hostHandlers : List (String × H)}
    {hostHandler : Option H} {autoServeBus : Bool}
    (h : Steps.Run (World.step decode) World.OneAtATime
      (setupEventBus capacity hostHandlers hostHandler autoServeBus) w) :
    ∀ p ∈ w.entered, p.2.isSome = true ∧ p.2 = w.grantedAt (w.bus.slotOf p.1.kind) := by
  have hall : Possible decode w ∧ Agrees w := by
    refine Steps.Run.inv (I := fun v => Possible decode v ∧ Agrees v) ?_ ?_ h
    · exact ⟨⟨_, _, _, _, .init⟩, agrees_setupEventBus _ _ _ _⟩
    · rintro v a v' ⟨hpossible, hagrees⟩ hφ hstep
      exact ⟨hpossible.step hstep, hagrees.step hpossible.inOrder hφ hstep⟩
  intro p hp
  exact ⟨hall.1.backed.entered p hp, hall.2.entered p hp⟩

theorem granted_function_two : handledTwo.entered.Forall fun p =>
    p.2.isSome = true ∧ p.2 = handledTwo.grantedAt (handledTwo.bus.slotOf p.1.kind) :=
  List.forall_iff_forall_mem.mpr (granted_function run_handledTwo)

/-- No function is loaded for this kind. -/
def World.NoLoad (kind : String) (_ : World H F) : Act F → Prop
  | .load slot _ => slot ≠ .on kind
  | _ => True

/-- What a refused registration leaves behind. -/
structure World.TakenOver (kind : String) (f : F) (w w' : World H F) : Prop where
  taken : w'.phase ≠ .parked
  isle : w'.isle.at (.on kind) = some f
  granted : w'.granted = w.granted
  entered : ∃ more, w'.entered = w.entered ++ more ∧ ∀ p ∈ more, p.1.kind = kind → p.2 = some f
  told : ∃ more, w'.told = w.told ++ more ∧ ∀ t ∈ more, ∃ text, t.2 = .error text

theorem World.TakenOver.step {kind : String} {f : F} {a : Act F} {v : World H F}
    (h : TakenOver kind f w v) (hφ : NoLoad kind v a) (hs : v.step decode a = some w') :
    TakenOver kind f w w' := by
  -- a bus that is taken stays taken: no registration is granted any more
  have htaken := ((step_moves hs).frozen h.taken).1
  obtain ⟨more, hmore, hkind⟩ := h.entered
  obtain ⟨answers, hanswers, herror⟩ := h.told
  cases step_hands hs with
  | aside hframe =>
      exact ⟨htaken, hframe.isle ▸ h.isle, hframe.granted.trans h.granted,
        ⟨more, hframe.entered.trans hmore, hkind⟩, ⟨answers, hframe.told.trans hanswers, herror⟩⟩
  | taken hparked => exact absurd hparked h.taken
  | abandoned pending hpending => exact ⟨htaken, h.isle, h.granted, h.entered, h.told⟩
  | told asked text pending hpending =>
      refine ⟨htaken, h.isle, h.granted, h.entered, answers ++ [(asked, .error text)], ?_, ?_⟩
      · show v.told ++ _ = _
        rw [hanswers, List.append_assoc]
      · intro t ht
        rcases List.mem_append.mp ht with ht | ht
        · exact herror t ht
        · obtain rfl := List.mem_singleton.mp ht
          exact ⟨text, rfl⟩
  | loaded slot g ha =>
      subst ha
      refine ⟨htaken, ?_, h.granted, h.entered, h.told⟩
      -- the load is of another slot
      show (v.isle.load g slot).at (.on kind) = some f
      rw [Isle.at_load, if_neg fun heq => hφ heq.symm]
      exact h.isle
  | granted slot g hparked hmem pending hpending => exact absurd hparked h.taken
  | entered hcalling e hbusy =>
      refine ⟨htaken, h.isle, h.granted, ⟨more ++ [(e, v.isle.lookup e.kind)], ?_, ?_⟩, h.told⟩
      · show v.entered ++ _ = _
        rw [hmore, List.append_assoc]
      · intro p hp heq
        rcases List.mem_append.mp hp with hp | hp
        · exact hkind p hp heq
        · obtain rfl := List.mem_singleton.mp hp
          show v.isle.lookup e.kind = some f
          have hkey : e.kind = kind := heq
          rw [hkey, Isle.lookup_eq, h.isle]
          rfl

/-- **A refused registration takes over**: when the bus serves, a function that is
loaded for a kind handles every event of that kind that comes to Lua from then
on, until the next one is; none of the requests made meanwhile is granted. -/
theorem refused_takes_over {kind : String} {f : F} {w₁ : World H F} (htaken : w.phase ≠ .parked)
    (hload : w.step decode (.load (.on kind) f) = some w₁)
    (hrun : Steps.Run (World.step decode) (World.NoLoad kind) w₁ w') :
    w'.granted = w.granted ∧
    (∃ more, w'.told = w.told ++ more ∧ ∀ t ∈ more, ∃ text, t.2 = .error text) ∧
    ∃ more, w'.entered = w.entered ++ more ∧ ∀ p ∈ more, p.1.kind = kind → p.2 = some f := by
  have hover : World.TakenOver kind f w w' := by
    refine Steps.Run.inv (I := World.TakenOver kind f w) ?_
      (fun v a v' hv hφ hstep => hv.step hφ hstep) hrun
    obtain rfl := Option.some.inj hload
    refine ⟨htaken, ?_, rfl, ⟨[], (List.append_nil _).symm, ?_⟩, ⟨[], (List.append_nil _).symm, ?_⟩⟩
    · show (w.isle.load f (.on kind)).at (.on kind) = some f
      simp
    · intro p hp
      cases hp
    · intro t ht
      cases ht
  exact ⟨hover.granted, hover.told, hover.entered⟩

/-- Another function, loaded while the bus serves. -/
def loadedLate : World Unit String :=
  { registered with
    isle := Isle.load registered.isle "g" (.on "mesh")
    pending := [(.on "mesh", "g")] }

/-- It is refused, and an event comes. -/
def handledLate : World Unit String :=
  { loadedLate with
    pending := []
    told := loadedLate.told ++ [(.register (.on "mesh"), .error (World.takenText (.on "mesh")))]
    phase := .inside (some "g")
    server := { busy := some oneEvent }
    next := 1
    accepted := [oneEvent]
    dispatched := [(oneEvent, some .lua)]
    entered := [(oneEvent, some "g")] }

theorem refused_takes_over_mesh :
    ∃ more, handledLate.entered = registered.entered ++ more ∧
      ∀ p ∈ more, p.1.kind = "mesh" → p.2 = some "g" :=
  (refused_takes_over (by simp [registered])
    (show registered.step (fun _ => none) (.load (.on "mesh") "g") = some loadedLate from rfl)
    (@Steps.Run.follow _ _ _ _ _ handledLate _
      [.register 0, .send "mesh" "e" .null .null true, .poll, .enter] .init
      ⟨trivial, trivial, trivial, trivial, trivial⟩ rfl)).2.2

end AgentBlock.Bus
