/-
AgentBlock/Shell/FoldStable.lean

The fold of a longer history begins as the fold of the shorter one.

The turns of a history stay as they are when events are added to it, all but
the one under way, which only gains results; so the messages stay too, up to
what was said last.  Events that are not part of a conversation change nothing,
and nor does the order a device keeps its tools in.

Main results:

* `turns_append` — the turns of a longer history;
* `fold_append_stable`.
-/
import AgentBlock.Shell.OneHandle

namespace AgentBlock.Shell

open Lua (record array)

/-! ### Statement -/

/-- The turn a history ends in. -/
def lastTurn (encode : Lua → Except Lua String) (events : List Lua) : Turn :=
  (turnsOf encode events).getLastD {}

/-- The history ends with no call unanswered and no result after what was said
last. -/
structure Rests (encode : Lua → Except Lua String) (events : List Lua) : Prop where
  answered : (lastTurn encode events).unanswered = []
  results : (lastTurn encode events).results = []

/-- Nothing is said in the history. -/
def Unspoken (encode : Lua → Except Lua String) (events : List Lua) : Prop :=
  ∀ ev ∈ events, ∀ message ids, heard encode ev ≠ .said message ids

/-- The messages end with what is said last in the history, and are none where
nothing is said. -/
def EndsSaid (encode : Lua → Except Lua String) (events messages : List Lua) : Prop :=
  (Unspoken encode events ∧ messages = []) ∨
    ∃ before ev after message ids earlier, events = before ++ ev :: after ∧
      heard encode ev = .said message ids ∧ Unspoken encode after ∧ messages = earlier ++ [message]

/-- No message, or one of results. -/
def IsBatch (messages : List Lua) : Prop :=
  messages = [] ∨ ∃ blocks, messages = [userMessage (array blocks)]

/-- The kinds of the events that a request is made of. -/
def foldedKinds : List String := ["msg_user", "llm_response", "tool_result"]

/-- **The fold is append-stable.**  Messages are compared where both folds
answer: a history that the fold cannot read has none. -/
structure AppendStable (encode : Lua → Except Lua String) : Prop where
  rests : ∀ device xs ys r r', Rests encode xs → fold encode (array xs) device = .ok r →
    fold encode (array (xs ++ ys)) device = .ok r' →
    ∃ messages more, r.get "messages" = array messages ∧
      r'.get "messages" = array (messages ++ more)
  said : ∀ device xs ys r r', fold encode (array xs) device = .ok r →
    fold encode (array (xs ++ ys)) device = .ok r' →
    ∃ said batch more, EndsSaid encode xs said ∧ IsBatch batch ∧
      r.get "messages" = array (said ++ batch) ∧ r'.get "messages" = array (said ++ more)
  silent : ∀ device xs ys ev, ev.isIndexable = true →
    (∀ kind ∈ foldedKinds, ev.get "kind" ≠ .str kind) →
    fold encode (array (xs ++ ev :: ys)) device = fold encode (array (xs ++ ys)) device
  tools : ∀ (device : Device) events (tools tools' : List (String × ToolEntry)),
    (tools.map Prod.fst).Nodup → tools.Perm tools' →
    fold encode events { device with tools := some tools } =
      fold encode events { device with tools := some tools' }

/-! ### Turns -/

section

variable {encode : Lua → Except Lua String} {xs ys : List Lua}

/-- What is said last, if anything is. -/
theorem unspoken_or (encode : Lua → Except Lua String) (xs : List Lua) :
    Unspoken encode xs ∨ ∃ before ev after message ids, xs = before ++ ev :: after ∧
      heard encode ev = .said message ids ∧ Unspoken encode after := by
  induction xs with
  | nil => exact .inl nofun
  | cons x rest ih =>
      rcases ih with hrest | ⟨before, ev, after, message, ids, rfl, hev, hafter⟩
      · cases hx : heard encode x with
        | said message ids => exact .inr ⟨[], x, rest, message, ids, rfl, hx, hrest⟩
        | _ =>
            left
            intro ev hmem message ids hev
            rcases List.mem_cons.mp hmem with rfl | hmem
            · rw [hx] at hev
              cases hev
            · exact hrest ev hmem message ids hev
      · exact .inr ⟨x :: before, ev, after, message, ids, rfl, hev, hafter⟩

/-- Where nothing is said, the turn under way only gains results. -/
theorem turns_unspoken (t : Turn) (h : Unspoken encode xs) :
    ∃ rs, ∀ more, turns t (hearing encode xs ++ more) =
      turns { t with results := t.results ++ rs } more := by
  induction xs generalizing t with
  | nil => exact ⟨[], fun more => by rw [List.append_nil]; rfl⟩
  | cons x rest ih =>
      have hrest : Unspoken encode rest := fun ev hev => h ev (List.mem_cons_of_mem _ hev)
      show ∃ rs, ∀ more, turns t (heard encode x :: (hearing encode rest ++ more)) = _
      cases hx : heard encode x with
      | said message ids => exact absurd hx (h x List.mem_cons_self message ids)
      | result id block =>
          obtain ⟨rs, hrs⟩ := ih { t with results := t.results ++ [(id, block)] } hrest
          refine ⟨(id, block) :: rs, fun more => ?_⟩
          rw [turns, hrs, List.append_assoc]
          rfl
      | skipped => exact ih t hrest

/-- **The turns of a longer history.**  All but the one under way are over. -/
theorem turns_append (encode : Lua → Except Lua String) (xs : List Lua) :
    ∃ done last, EndsSaid encode xs (done.flatMap Turn.messages ++ last.message.toList) ∧
      ∀ ys, turnsOf encode (xs ++ ys) = done ++ turns last (hearing encode ys) := by
  have happend (a b : List Lua) : hearing encode (a ++ b) = hearing encode a ++ hearing encode b :=
    List.map_append
  rcases unspoken_or encode xs with h | ⟨before, ev, after, message, ids, rfl, hev, hafter⟩
  · obtain ⟨rs, hrs⟩ := turns_unspoken {} h
    refine ⟨[], { results := [] ++ rs }, .inl ⟨h, rfl⟩, fun ys => ?_⟩
    rw [turnsOf, happend, hrs]
    rfl
  · obtain ⟨rs, hrs⟩ := turns_unspoken { message := some message, ids } hafter
    refine ⟨turnsOf encode before, { message := some message, ids, results := [] ++ rs },
      .inr ⟨before, ev, after, message, ids, _, rfl, hev, hafter, rfl⟩, fun ys => ?_⟩
    show turns {} (hearing encode (before ++ ev :: after ++ ys)) = _
    rw [List.append_assoc, happend, List.cons_append]
    show turns {} (hearing encode before ++ heard encode ev :: hearing encode (after ++ ys)) = _
    rw [hev, turns_said, happend, hrs]
    rfl

theorem flatMap_turns (t : Turn) (hs : List Heard) :
    ∃ more, (turns t hs).flatMap Turn.messages = t.message.toList ++ more := by
  obtain ⟨rs, more, h⟩ := turns_first t hs
  refine ⟨Turn.answers { t with results := t.results ++ rs } ++ more.flatMap Turn.messages, ?_⟩
  rw [h, List.flatMap_cons, Turn.messages, List.append_assoc]

/-! ### Requests -/

theorem fold_ok {device : Device} {r : Lua} (h : fold encode (array xs) device = .ok r) :
    r.get "messages" = array ((turnsOf encode xs).flatMap Turn.messages) := by
  rw [(fold_array_ok.mp h).2, requestOf_messages]

theorem fold_said (device : Device) (r r' : Lua) (h : fold encode (array xs) device = .ok r)
    (h' : fold encode (array (xs ++ ys)) device = .ok r') :
    ∃ said batch more, EndsSaid encode xs said ∧ IsBatch batch ∧
      r.get "messages" = array (said ++ batch) ∧ r'.get "messages" = array (said ++ more) := by
  obtain ⟨done, last, hsaid, hturns⟩ := turns_append encode xs
  obtain ⟨more, hmore⟩ := flatMap_turns last (hearing encode ys)
  have hxs : turnsOf encode xs = done ++ [last] := by
    rw [← List.append_nil xs, hturns]
    rfl
  refine ⟨_, last.answers, more, hsaid, ?_, ?_, ?_⟩
  · rw [Turn.answers]
    split
    · exact .inl rfl
    · exact .inr ⟨_, rfl⟩
  · rw [fold_ok h, hxs, List.flatMap_append, List.flatMap_singleton, Turn.messages,
      List.append_assoc]
  · rw [fold_ok h', hturns, List.flatMap_append, hmore, List.append_assoc]

theorem fold_rests (device : Device) (r r' : Lua) (hrests : Rests encode xs)
    (h : fold encode (array xs) device = .ok r)
    (h' : fold encode (array (xs ++ ys)) device = .ok r') :
    ∃ messages more, r.get "messages" = array messages ∧
      r'.get "messages" = array (messages ++ more) := by
  obtain ⟨done, last, -, hturns⟩ := turns_append encode xs
  obtain ⟨more, hmore⟩ := flatMap_turns last (hearing encode ys)
  have hxs : turnsOf encode xs = done ++ [last] := by
    rw [← List.append_nil xs, hturns]
    rfl
  have hlast : lastTurn encode xs = last := by
    rw [lastTurn, hxs, List.getLastD_concat]
  -- a turn at rest is its message and nothing else
  have hrest : last.answers = [] := by
    rw [← hlast, Turn.answers, Turn.blocks, hrests.answered, hrests.results]
    rfl
  refine ⟨done.flatMap Turn.messages ++ last.message.toList, more, ?_, ?_⟩
  · rw [fold_ok h, hxs, List.flatMap_append, List.flatMap_singleton, Turn.messages, hrest,
      List.append_nil]
  · rw [fold_ok h', hturns, List.flatMap_append, hmore, List.append_assoc]

/-! ### What the request does not depend on -/

theorem foldEvents_append (f : Folding) (xs ys : List Lua) :
    foldEvents encode f (xs ++ ys) =
      (foldEvents encode f xs).bind fun f => foldEvents encode f ys := by
  induction xs generalizing f with
  | nil => rfl
  | cons x rest ih =>
      show (foldEvent encode f x).bind _ = ((foldEvent encode f x).bind _).bind _
      cases foldEvent encode f x with
      | error e => rfl
      | ok f => exact ih f

theorem foldEvents_silent (f : Folding) {ev : Lua} (hev : ev.isIndexable = true)
    (hsilent : ∀ kind ∈ foldedKinds, ev.get "kind" ≠ .str kind) :
    foldEvents encode f (ev :: ys) = foldEvents encode f ys := by
  show (foldEvent encode f ev).bind _ = _
  rw [foldEvent_other f hev (hsilent _ (by decide)) (hsilent _ (by decide))
    (hsilent _ (by decide))]
  rfl

theorem fold_silent (device : Device) (xs ys : List Lua) {ev : Lua} (hev : ev.isIndexable = true)
    (hsilent : ∀ kind ∈ foldedKinds, ev.get "kind" ≠ .str kind) :
    fold encode (array (xs ++ ev :: ys)) device = fold encode (array (xs ++ ys)) device := by
  have hmessages : foldMessages encode (xs ++ ev :: ys) = foldMessages encode (xs ++ ys) := by
    show (foldEvents encode {} (xs ++ ev :: ys)).bind _ = (foldEvents encode {} (xs ++ ys)).bind _
    rw [foldEvents_append, foldEvents_append]
    congr 2
    funext f
    exact foldEvents_silent f hev hsilent
  rw [fold_array, fold_array, hmessages]

/-- A map has one entry for a name, so sorting by name leaves one order. -/
theorem wireTools_perm {tools tools' : List (String × ToolEntry)}
    (hnodup : (tools.map Prod.fst).Nodup) (h : tools.Perm tools') :
    wireTools tools = wireTools tools' := by
  have hsorted (l : List (String × ToolEntry)) :
      (l.insertionSort fun a b => a.1 ≤ b.1).Pairwise fun a b => a.1 ≤ b.1 :=
    List.pairwise_insertionSort _ l
  have hperm := ((List.perm_insertionSort (fun a b => a.1 ≤ b.1) tools).trans h).trans
    (List.perm_insertionSort (fun a b : String × ToolEntry => a.1 ≤ b.1) tools').symm
  have heq := List.Perm.eq_of_pairwise (fun a b ha hb hab hba => ?_) (hsorted tools)
    (hsorted tools') hperm
  · rw [wireTools, wireTools, heq]
  · have ha' : a ∈ tools := (List.mem_insertionSort _).mp ha
    have hb' : b ∈ tools := h.mem_iff.mpr ((List.mem_insertionSort _).mp hb)
    exact List.inj_on_of_nodup_map hnodup ha' hb' (le_antisymm hab hba)

end

/-- **The default fold is append-stable**, whatever renders a result that is no
string.  Nothing is asked of the histories but that the fold can read them: a turn
under way is the only part of a request that what is appended can still reach, and
an event of another kind says nothing to the fold, wherever it stands. -/
theorem fold_append_stable (encode : Lua → Except Lua String) : AppendStable encode where
  rests device _ _ r r' hrests h h' := fold_rests device r r' hrests h h'
  said device _ _ r r' h h' := fold_said device r r' h h'
  silent device xs ys _ hev hsilent := fold_silent device xs ys hev hsilent
  tools device events tools tools' hnodup hperm := by
    show (events.orElse _).ipairs.bind _ = (events.orElse _).ipairs.bind _
    congr 1
    funext list
    show (foldMessages encode list).bind (fun messages => .ok (record [("messages", array messages),
      ("system", device.system), ("tools", wireTools tools)])) = _
    rw [wireTools_perm hnodup hperm]
    rfl

end AgentBlock.Shell
