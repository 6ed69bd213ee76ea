/-
AgentBlock/Policy/Caps.lean

The two caps on what tools answer: one on a single result, and one on the
results of a beat together.

Neither keeps a count.  The second reads the results of the beat so far off the
log, where what was refused stands beside what was let through, and where a
result is what it is once stored and read back.  The count of a text is what the
room's Port gives (`count`); `std.json.encode` is a parameter.

Main results:

* `usedOf_read` — what is read of a beat so far is the counts of its results;
* `caps_bound` — where counts are whole, the log can be read, and no result
  counts less once it is stored, the caps bound a beat;
* `caps_exceeded` — where a result counts less once it is stored, they do not.
-/
import AgentBlock.Policy.RepeatCap
import AgentBlock.Policy.Room

namespace AgentBlock.Policy

open Bridge Shell
open Except (bind_eq_ok map_eq_ok)

/-! ### The caps -/

section

variable (encode : LuaVal → Except LuaVal String)
  (order : List (LuaKey × LuaVal) → List (LuaKey × LuaVal)) (count : String → LuaNumber)
  (room : Room)

/-- A result as it stands in a request.  A string of bytes that are no text stands
there as it is too; `encode` is asked for its text here, of which nothing is
assumed. -/
def rendered : LuaVal → Except LuaVal String
  | .str s => .ok s
  | result => encode result

/-- `%d` of a number. -/
def shownInt (n : LuaNumber) : Except LuaVal String :=
  (formatInt n).mapError fun _ => .str "number has no integer representation"

/-- What a cap says of a result: a refusal in its place, or nothing. -/
abbrev Judge := LuaVal → Except LuaVal (Option LuaVal)

def resultTooLarge (name : String) (tokens limit : LuaNumber) : Except LuaVal LuaVal := do
  let t ← shownInt tokens
  let l ← shownInt limit
  .ok (.table false [] [(.str "ok", .bool false), (.str "reason", .str "result_too_large"),
    (.str "tokens", .num tokens), (.str "limit", .num limit),
    (.str "error", .str ("'" ++ name ++ "' answered " ++ t ++ " tokens and one result may take at " ++
      "most " ++ l ++ " — the whole conversation has to fit the model's window. Ask for a smaller " ++
      "piece: a narrower range, fewer items, one file at a time."))])

/-- `policy.result_cap`, of one result. -/
def resultCap (name : String) : Judge := fun result => do
  let text ← rendered encode result
  let tokens := count text
  if tokens.le room.resultLimit then .ok none
  else (resultTooLarge name tokens room.resultLimit).map some

/-- The beat of the first call in these events. -/
def firstCallBeat : List (LogEvent LuaVal) → Option String
  | [] => none
  | .toolCall beat _ _ _ :: _ => beat
  | _ :: rest => firstCallBeat rest

/-- The counts of the results of a beat, on top of what there is. -/
def resultsOf (beat : String) : LuaNumber → List (LogEvent LuaVal) → Except LuaVal LuaNumber
  | used, [] => .ok used
  | used, .toolResult its _ _ result :: rest =>
      if its = some beat then do
        let text ← rendered encode result
        resultsOf beat (used.add (count text)) rest
      else resultsOf beat used rest
  | used, _ :: rest => resultsOf beat used rest

/-- What the results of the beat now running come to. -/
def beatSoFar (events : List (LogEvent LuaVal)) : Except LuaVal LuaNumber :=
  match firstCallBeat events.reverse with
  | none => .ok (.int 0)
  | some current => (resultsOf encode count current (.int 0) events).map LuaNumber.floor

def overBudget (name : String) (tokens used limit : LuaNumber) : Except LuaVal LuaVal := do
  let t ← shownInt tokens.floor
  let u ← shownInt used
  let l ← shownInt limit
  .ok (.table false [] [(.str "ok", .bool false), (.str "reason", .str "beat_budget"),
    (.str "tokens", .num tokens.floor), (.str "used", .num used), (.str "limit", .num limit),
    (.str "error", .str ("'" ++ name ++ "' answered " ++ t ++ " tokens, and the results of this " ++
      "turn already take " ++ u ++ " of the " ++ l ++ " one turn may take together — the whole " ++
      "conversation has to fit the model's window. Ask for this on your next turn, after the " ++
      "results you have."))])

/-- `policy.beat_cap`, of one result, over the log it reads. -/
def beatCap (log : Log) (name : String) : Judge := fun result => do
  let text ← rendered encode result
  let tokens := count text
  let events ← wholeRows order log "policy.beat_cap"
  let used ← beatSoFar encode count events
  if (used.add tokens).le room.beatBudget then .ok none
  else (overBudget name tokens used room.beatBudget).map some

/-- The result itself, or the refusal in its place. -/
def Judge.answer (judge : Judge) (result : LuaVal) : Except LuaVal LuaVal :=
  (judge result).map fun refusal => refusal.getD result

/-- A handler whose result is judged. -/
def capped {W : Type} (judge : Log → Judge) (handler : Handler W) : Handler W :=
  fun args log world =>
    ((handler args log world).1.bind (judge log).answer, (handler args log world).2)

/-- `beat_cap(session)(result_cap(tools))`. -/
def cappedTools {W : Type} (tools : String → Option (Handler W)) (name : String) :
    Option (Handler W) :=
  (tools name).map fun handler =>
    capped (fun log => beatCap encode order count room log name)
      (capped (fun _ => resultCap encode count room name) handler)

end

/-! ### Statement -/

/-- The value of a finite number. -/
def valueOf : LuaNumber → ℚ
  | .int n => n
  | .float q => q
  | _ => 0

section

variable {W : Type} (encode : LuaVal → Except LuaVal String)
  (order : List (LuaKey × LuaVal) → List (LuaKey × LuaVal)) (count : String → LuaNumber)
  (room : Room) (tools : String → Option (Handler W))

/-- What a result counts. -/
def tokensOf (result : LuaVal) : ℚ :=
  match rendered encode result with
  | .ok text => valueOf (count text)
  | .error _ => 0

/-- What the tool itself answered where a handler ran. -/
def toolResult (a : HandlerRun W) : Option LuaVal :=
  (tools a.use.name).bind fun handler => (handler a.use.args a.log a.world).1.toOption

/-- A judge has nothing to say. -/
def Judge.passes (judge : Judge) (result : LuaVal) : Bool :=
  match judge result with
  | .ok none => true
  | _ => false

/-- The result that both caps let through. -/
def letThrough (a : HandlerRun W) : Option LuaVal :=
  (toolResult tools a).filter fun result =>
    (resultCap encode count room a.use.name).passes result &&
      (beatCap encode order count room a.log a.use.name).passes result

/-- Nothing of this beat has been recorded yet but calls. -/
def IsFirst (beat : String) (log : Log) : Prop :=
  ∀ callId ok result, LogEvent.toolResult (some beat) callId ok result ∉ log

/-- A refusal, as data. -/
def IsRefusal : LuaVal → Prop
  | .table false [] fields => fieldAt fields "ok" = .bool false ∧
      (fieldAt fields "reason" = .str "result_too_large" ∨
        fieldAt fields "reason" = .str "beat_budget")
  | _ => False

/-- The caps bound the handlers of one beat. -/
structure Bounded (beat : String) (runs : List (HandlerRun W)) : Prop where
  each : ∀ a ∈ runs, ∀ result, letThrough encode order count room tools a = some result →
    tokensOf encode count result ≤ valueOf room.resultLimit
  together : ((runs.filterMap (letThrough encode order count room tools)).map
    (tokensOf encode count)).sum ≤ valueOf room.beatBudget
  first : ∀ a ∈ runs, ∀ result text, toolResult tools a = some result →
    rendered encode result = .ok text → IsFirst beat a.log →
    tokensOf encode count result ≤ valueOf room.resultLimit →
      letThrough encode order count room tools a = some result
  refused : ∀ a ∈ runs, ∀ result text, toolResult tools a = some result →
    rendered encode result = .ok text → letThrough encode order count room tools a = none →
      ∃ refusal, a.answer = .ok refusal ∧
      IsRefusal refusal ∧ ∃ handler, tools a.use.name = some handler ∧
        a.after = (handler a.use.args a.log a.world).2
  own : ∀ a ∈ runs, ∀ events, wholeRows order a.log "policy.beat_cap" = .ok events →
    firstCallBeat events.reverse = some beat

end

/-! ### The condition -/

section

variable {W : Type} (encode : LuaVal → Except LuaVal String) (text : Json → String)
  (count : String → LuaNumber) (f : String → ℤ) (room : Room)
  (tools : String → Option (Handler W))

/-- A value is encoded as the JSON value it is. -/
def Encodes : Prop :=
  ∀ v j, toJson 0 v = .ok j → encode v = .ok (text j)

/-- The counts are whole numbers. -/
def Counts : Prop := ∀ t, (count t).Is (f t) ∧ 0 ≤ f t

/-- A JSON value as it stands in a request. -/
def textIn : Json → String
  | .str s => s
  | j => text j

/-- What a stored result counts, once it is read. -/
def storedTokens (j : Json) : ℤ := f (textIn text (floated j))

def eventTokens (beat : String) : LogEvent Json → ℤ
  | .toolResult its _ _ j => if its = some beat then storedTokens text f j else 0
  | _ => 0

/-- What the results of a beat count in a log. -/
def usedOf (beat : String) (log : Log) : ℤ := (log.map (eventTokens text f beat)).sum

/-- A stored result is a JSON value. -/
def ResultWellFormed : LogEvent Json → Prop
  | .toolResult _ _ _ j => WellFormed j
  | _ => True

/-- A result that is judged: a tool's, or the refusal in its place. -/
def Judged (a : HandlerRun W) (v : LuaVal) : Prop :=
  ∃ result, toolResult tools a = some result ∧
    (v = result ∨ resultCap encode count room a.use.name result = .ok (some v))

/-- The log can be read, its counts are small, and no result counts less once it
is stored than as it was answered. -/
structure PlainResult (beat : String) (a : HandlerRun W) : Prop where
  short : a.log.length ≤ DEFAULT_LIMIT
  shallow : ∀ ev ∈ a.log, depthRead ev ≤ maxDepth
  values : ∀ ev ∈ a.log, ResultWellFormed ev
  small : ∀ v t, Judged encode count room tools a v → rendered encode v = .ok t →
    usedOf text f beat a.log + f t ≤ 2 ^ 53
  back : ∀ result j, toolResult tools a = some result → toJson 2 (orEmpty result) = .ok j →
    tokensOf encode count result ≤ storedTokens text f j

end

/-! ### Counting -/

section

variable {encode : LuaVal → Except LuaVal String} {text : Json → String}
  {order : List (LuaKey × LuaVal) → List (LuaKey × LuaVal)} {count : String → LuaNumber}
  {f : String → ℤ} {beat : String}

theorem valueOf_is {n : LuaNumber} {k : ℤ} (h : n.Is k) : valueOf n = k := by
  rcases h with rfl | rfl | ⟨rfl, rfl⟩
  · rfl
  · rfl
  · rfl

theorem rendered_of_toJson (hencode : Encodes encode text) {v : LuaVal} {j : Json}
    (h : toJson 0 v = .ok j) : rendered encode v = .ok (textIn text j) := by
  cases v with
  | str s =>
      cases h
      rfl
  | bytes => cases h
  | other type => cases h
  | nil =>
      cases h
      exact hencode _ _ rfl
  | null =>
      cases h
      exact hencode _ _ rfl
  | bool b =>
      cases h
      exact hencode _ _ rfl
  | num n =>
      obtain ⟨m, -, rfl⟩ := map_eq_ok.mp (show (numberBack n).map Json.num = .ok j from h)
      exact hencode _ _ h
  | table tagged items fields =>
      have hcases : (∃ xs, j = .arr xs) ∨ ∃ members, j = .obj members := by
        rw [toJson, if_neg (Nat.not_lt_zero _)] at h
        split at h
        · obtain ⟨xs, -, rfl⟩ := map_eq_ok.mp h
          exact .inl ⟨xs, rfl⟩
        · obtain ⟨members, -, rfl⟩ := map_eq_ok.mp h
          exact .inr ⟨members, rfl⟩
      rcases hcases with ⟨xs, rfl⟩ | ⟨members, rfl⟩
      · exact hencode _ _ h
      · exact hencode _ _ h

theorem usedOf_append (log log' : Log) :
    usedOf text f beat (log ++ log') = usedOf text f beat log + usedOf text f beat log' := by
  rw [usedOf, List.map_append, List.sum_append, usedOf, usedOf]

theorem eventTokens_nonneg (hcounts : Counts count f) (ev : LogEvent Json) :
    0 ≤ eventTokens text f beat ev := by
  cases ev with
  | toolResult its callId ok j =>
      rw [eventTokens]
      split
      · exact (hcounts _).2
      · exact le_rfl
  | _ => exact le_rfl

theorem usedOf_nonneg (hcounts : Counts count f) (log : Log) : 0 ≤ usedOf text f beat log := by
  refine List.sum_nonneg ?_
  intro n hn
  obtain ⟨ev, -, rfl⟩ := List.mem_map.mp hn
  exact eventTokens_nonneg hcounts ev

/-- What is read of a beat is the counts of its results. -/
theorem usedOf_read (hencode : Encodes encode text) (hperm : ∀ fields, (order fields).Perm fields)
    (hcounts : Counts count f) {log : Log} {events : List (LogEvent LuaVal)}
    (hread : List.Forall₂ (Reads order) log events) (hvalues : ∀ ev ∈ log, ResultWellFormed ev)
    {used : LuaNumber} {n : ℤ} (hused : used.Is n) (hn : 0 ≤ n)
    (hsmall : n + usedOf text f beat log ≤ 2 ^ 53) :
    ∃ total, resultsOf encode count beat used events = .ok total ∧
      total.Is (n + usedOf text f beat log) := by
  induction hread generalizing used n with
  | nil =>
      refine ⟨used, rfl, ?_⟩
      rw [usedOf, List.map_nil, List.sum_nil, add_zero]
      exact hused
  | @cons ev row log events hrow hrest ih =>
      have hvaluesRest := fun ev' hev' => hvalues ev' (List.mem_cons_of_mem _ hev')
      have hsum : usedOf text f beat (ev :: log) =
          eventTokens text f beat ev + usedOf text f beat log := by
        rw [usedOf, List.map_cons, List.sum_cons, ← usedOf]
      have hnonneg := @usedOf_nonneg text count f beat hcounts log
      rw [hsum, ← add_assoc] at hsmall ⊢
      cases ev with
      | toolCall its callId name args =>
          obtain ⟨v, -, rfl⟩ := map_eq_ok.mp hrow
          have hzero : eventTokens text f beat (.toolCall its callId name args) = 0 := rfl
          rw [hzero, add_zero] at hsmall ⊢
          exact ih hvaluesRest hused hn hsmall
      | other kind its data =>
          obtain ⟨v, -, rfl⟩ := map_eq_ok.mp hrow
          have hzero : eventTokens text f beat (.other kind its data) = 0 := rfl
          rw [hzero, add_zero] at hsmall ⊢
          exact ih hvaluesRest hused hn hsmall
      | toolResult its callId ok j =>
          obtain ⟨v, hv, rfl⟩ := map_eq_ok.mp hrow
          rw [eventTokens] at hsmall ⊢
          rw [resultsOf]
          by_cases hits : its = some beat
          · rw [if_pos hits] at hsmall ⊢
            rw [if_pos hits]
            have hj : WellFormed j := hvalues _ List.mem_cons_self
            -- the result is read from the log, so it is rendered as the JSON value it is
            have hback := toJson_of_toLuaVal hperm hj hv (Nat.zero_le _)
            rw [rendered_of_toJson hencode hback]
            obtain ⟨his, hpos⟩ := hcounts (textIn text (floated j))
            rw [storedTokens] at hsmall ⊢
            -- within 2^53 the sum of the host's numbers is the sum of the integers
            have hsmalls : LuaNumber.Small n ∧ LuaNumber.Small (f (textIn text (floated j))) ∧
                LuaNumber.Small (n + f (textIn text (floated j))) := by
              refine ⟨abs_le.mpr ⟨?_, ?_⟩, abs_le.mpr ⟨?_, ?_⟩, abs_le.mpr ⟨?_, ?_⟩⟩ <;> omega
            exact ih hvaluesRest (hused.add his hsmalls.1 hsmalls.2.1 hsmalls.2.2)
              (add_nonneg hn hpos) hsmall
          · rw [if_neg hits, add_zero] at hsmall
            rw [if_neg hits, if_neg hits, add_zero]
            exact ih hvaluesRest hused hn hsmall

end

/-! ### One handler -/

/-- A handler of a beat, run over the log that its call was recorded in. -/
structure Ran {W : Type} (tools : String → Option (Handler W)) (beat : String) (log : Log)
    (a : HandlerRun W) : Prop where
  called : ∃ j, a.log = log ++ [.toolCall (some beat) a.use.id a.use.name j]
  ran : ∃ handler, tools a.use.name = some handler ∧
    handler a.use.args a.log a.world = (a.answer, a.after)

section

variable {W : Type} {encode : LuaVal → Except LuaVal String} {text : Json → String}
  {order : List (LuaKey × LuaVal) → List (LuaKey × LuaVal)} {count : String → LuaNumber}
  {f : String → ℤ} {room : Room} {tools : String → Option (Handler W)} {beat : String}
  {log : Log} {a : HandlerRun W} {one budget : ℤ}

/-- The two limits of a room. -/
structure Limits (room : Room) (one budget : ℤ) : Prop where
  result : room.resultLimit = .int one
  beat : room.beatBudget = .int budget
  nonneg : 0 ≤ one
  le : one ≤ budget
  small : budget ≤ 2 ^ 53

theorem fieldsBack_flat {fields : List (LuaKey × LuaVal)}
    (h : ∀ p ∈ fields, (∃ s, p.1 = .str s) ∧ ∃ x, toJson 1 p.2 = .ok x) (members : Obj) :
    ∃ o, fieldsBack 1 members fields = .ok o := by
  induction fields generalizing members with
  | nil => exact ⟨members, rfl⟩
  | cons p fields ih =>
      obtain ⟨key, field⟩ := p
      obtain ⟨⟨⟨s, hs⟩, x, hx⟩, hrest⟩ := List.forall_mem_cons.mp h
      obtain ⟨o, ho⟩ := ih hrest (members.insert s x)
      refine ⟨o, ?_⟩
      rw [fieldsBack]
      exact bind_eq_ok.mpr ⟨s, congrArg memberName hs, bind_eq_ok.mpr ⟨x, hx, ho⟩⟩

theorem toJson_flat {fields : List (LuaKey × LuaVal)}
    (h : ∀ p ∈ fields, (∃ s, p.1 = .str s) ∧ ∃ x, toJson 1 p.2 = .ok x) :
    ∃ j, toJson 0 (.table false [] fields) = .ok j := by
  obtain ⟨o, ho⟩ := fieldsBack_flat h []
  refine ⟨.obj o, ?_⟩
  rw [toJson, if_neg (Nat.not_lt_zero _)]
  simp only [ne_eq, not_true_eq_false, Bool.false_eq_true, or_self, if_false, Nat.zero_add, ho]
  rfl

theorem toJson_num {n : LuaNumber} {k : ℤ} (h : n.Is k) : ∃ x, toJson 1 (.num n) = .ok x := by
  rcases h with rfl | rfl | ⟨rfl, -⟩
  · exact ⟨_, rfl⟩
  · exact ⟨_, rfl⟩
  · exact ⟨_, rfl⟩

theorem shownInt_is {n : LuaNumber} {k : ℤ} (h : n.Is k) (hk : LuaNumber.Small k) :
    shownInt n = .ok (toString k) := by
  have hformat : formatInt n = .ok (toString k) := by
    rw [formatInt, h.floor hk, h.isWhole]
    rfl
  rw [shownInt, hformat]
  rfl

/-- Data that refuses, and can be encoded. -/
def Refuses (v : LuaVal) : Prop := IsRefusal v ∧ ∃ j, toJson 0 v = .ok j

theorem resultTooLarge_refuses {name : String} {tokens limit : LuaNumber} {t l : ℤ}
    (htokens : tokens.Is t) (hlimit : limit.Is l) (ht : LuaNumber.Small t)
    (hl : LuaNumber.Small l) : ∃ v, resultTooLarge name tokens limit = .ok v ∧ Refuses v := by
  rw [resultTooLarge, shownInt_is htokens ht, shownInt_is hlimit hl]
  refine ⟨_, rfl, ⟨rfl, .inl rfl⟩, toJson_flat ?_⟩
  simp only [List.forall_mem_cons, List.not_mem_nil, false_implies, implies_true, and_true]
  exact ⟨⟨⟨_, rfl⟩, _, rfl⟩, ⟨⟨_, rfl⟩, _, rfl⟩, ⟨⟨_, rfl⟩, toJson_num htokens⟩,
    ⟨⟨_, rfl⟩, toJson_num hlimit⟩, ⟨_, rfl⟩, _, rfl⟩

theorem overBudget_refuses {name : String} {tokens used limit : LuaNumber} {t u l : ℤ}
    (htokens : tokens.Is t) (hused : used.Is u) (hlimit : limit.Is l) (ht : LuaNumber.Small t)
    (hu : LuaNumber.Small u) (hl : LuaNumber.Small l) :
    ∃ v, overBudget name tokens used limit = .ok v ∧ Refuses v := by
  rw [overBudget, shownInt_is htokens.floor_is ht, shownInt_is hused hu, shownInt_is hlimit hl]
  refine ⟨_, rfl, ⟨rfl, .inr rfl⟩, toJson_flat ?_⟩
  simp only [List.forall_mem_cons, List.not_mem_nil, false_implies, implies_true, and_true]
  exact ⟨⟨⟨_, rfl⟩, _, rfl⟩, ⟨⟨_, rfl⟩, _, rfl⟩, ⟨⟨_, rfl⟩, toJson_num htokens.floor_is⟩,
    ⟨⟨_, rfl⟩, toJson_num hused⟩, ⟨⟨_, rfl⟩, toJson_num hlimit⟩, ⟨_, rfl⟩, _, rfl⟩

theorem small_of {n : ℤ} (h : 0 ≤ n) (hle : n ≤ 2 ^ 53) : LuaNumber.Small n :=
  abs_le.mpr ⟨by omega, hle⟩

/-- What the first cap says of a result that can be rendered. -/
theorem resultCap_cases (hlimits : Limits room one budget) (hcounts : Counts count f)
    (name : String) {v : LuaVal} {t : String} (ht : rendered encode v = .ok t)
    (hsmall : f t ≤ 2 ^ 53) :
    f t ≤ one ∧ resultCap encode count room name v = .ok none ∨
      one < f t ∧ ∃ refusal, resultCap encode count room name v = .ok (some refusal) ∧
        Refuses refusal := by
  obtain ⟨his, hpos⟩ := hcounts t
  have hle := his.le_iff (LuaNumber.is_int one)
  have hunfold : resultCap encode count room name v =
      if (count t).le (.int one) then .ok none
      else (resultTooLarge name (count t) (.int one)).map some := by
    rw [resultCap, ht, hlimits.result]
    rfl
  rw [hunfold]
  by_cases hfits : f t ≤ one
  · exact .inl ⟨hfits, if_pos (hle.mpr hfits)⟩
  · have hone : one ≤ 2 ^ 53 := hlimits.le.trans hlimits.small
    obtain ⟨refusal, hrefusal, hrefuses⟩ := @resultTooLarge_refuses name _ _ _ _ his
      (LuaNumber.is_int one) (small_of hpos hsmall) (small_of hlimits.nonneg hone)
    refine .inr ⟨lt_of_not_ge hfits, refusal, ?_, hrefuses⟩
    rw [if_neg fun h => hfits (hle.mp h), hrefusal]
    rfl

/-- The call just recorded is of the beat whose results are read. -/
theorem firstCallBeat_eq (hran : Ran tools beat log a) {events : List (LogEvent LuaVal)}
    (hread : List.Forall₂ (Reads order) a.log events) :
    firstCallBeat events.reverse = some beat := by
  obtain ⟨j, hlog⟩ := hran.called
  rw [hlog] at hread
  have hreversed := List.forall₂_reverse_iff.mpr hread
  rw [List.reverse_append] at hreversed
  cases hrev : events.reverse with
  | nil =>
      rw [hrev] at hreversed
      cases hreversed
  | cons row rest =>
      rw [hrev] at hreversed
      obtain ⟨hrow, -⟩ := List.forall₂_cons.mp hreversed
      obtain ⟨v, -, rfl⟩ := map_eq_ok.mp hrow
      rfl

/-- What the second cap says of what is judged. -/
theorem beatCap_cases (hencode : Encodes encode text)
    (hperm : ∀ fields, (order fields).Perm fields) (hlimits : Limits room one budget)
    (hcounts : Counts count f) (hran : Ran (cappedTools encode order count room tools) beat log a)
    (hplain : PlainResult encode text count f room tools beat a) {v : LuaVal} {t : String}
    (hv : Judged encode count room tools a v) (ht : rendered encode v = .ok t) :
    usedOf text f beat a.log + f t ≤ budget ∧
        beatCap encode order count room a.log a.use.name v = .ok none ∨
      budget < usedOf text f beat a.log + f t ∧ ∃ refusal,
        beatCap encode order count room a.log a.use.name v = .ok (some refusal) ∧
          Refuses refusal := by
  obtain ⟨his, hpos⟩ := hcounts t
  have hsmall := hplain.small v t hv ht
  have husedpos := @usedOf_nonneg text count f beat hcounts a.log
  obtain ⟨events, hevents, hread⟩ := @wholeRows_eq order _ "policy.beat_cap" hplain.short
    hplain.shallow
  obtain ⟨total, htotal, htotalis⟩ := @usedOf_read encode text order count f beat hencode hperm
    hcounts _ _ hread hplain.values _ _ (LuaNumber.is_int 0) le_rfl (by omega)
  rw [zero_add] at htotalis
  have hfloor := htotalis.floor_is
  have hsoFar : beatSoFar encode count events = .ok total.floor := by
    rw [beatSoFar, firstCallBeat_eq hran hread]
    exact map_eq_ok.mpr ⟨total, htotal, rfl⟩
  have hsum : (total.floor.add (count t)).Is (usedOf text f beat a.log + f t) :=
    hfloor.add his (small_of husedpos (by omega)) (small_of hpos (by omega))
      (small_of (by omega) hsmall)
  have hle := hsum.le_iff (LuaNumber.is_int budget)
  have hunfold : beatCap encode order count room a.log a.use.name v =
      if (total.floor.add (count t)).le (.int budget) then .ok none
      else (overBudget a.use.name (count t) total.floor (.int budget)).map some := by
    rw [beatCap, ht, hevents, hlimits.beat]
    simp only [hsoFar, Bind.bind, Except.bind]
  rw [hunfold]
  by_cases hfits : usedOf text f beat a.log + f t ≤ budget
  · exact .inl ⟨hfits, if_pos (hle.mpr hfits)⟩
  · have hbudget := hlimits.nonneg.trans hlimits.le
    obtain ⟨refusal, hrefusal, hrefuses⟩ := @overBudget_refuses a.use.name _ _ _ _ _ _ his hfloor
      (LuaNumber.is_int budget) (small_of hpos (by omega)) (small_of husedpos (by omega))
      (small_of hbudget hlimits.small)
    refine .inr ⟨lt_of_not_ge hfits, refusal, ?_, hrefuses⟩
    rw [if_neg fun h => hfits (hle.mp h), hrefusal]
    rfl

/-- What a handler under the caps comes to, of its tool's own result. -/
theorem answer_eq (hran : Ran (cappedTools encode order count room tools) beat log a)
    {result : LuaVal} (hresult : toolResult tools a = some result) :
    a.answer = ((resultCap encode count room a.use.name).answer result).bind
        (beatCap encode order count room a.log a.use.name).answer ∧
      ∃ handler, tools a.use.name = some handler ∧
        a.after = (handler a.use.args a.log a.world).2 := by
  obtain ⟨handler', hhandler', hanswer⟩ := hran.ran
  obtain ⟨handler, hhandler, rfl⟩ := Option.map_eq_some_iff.mp hhandler'
  obtain ⟨hanswer, hafter⟩ := Prod.mk.inj hanswer
  rw [toolResult, hhandler, Option.bind_some] at hresult
  have hok : (handler a.use.args a.log a.world).1 = .ok result := by
    cases hinner : (handler a.use.args a.log a.world).1 with
    | error raised =>
        rw [hinner] at hresult
        cases hresult
    | ok own =>
        rw [hinner] at hresult
        exact congrArg _ (Option.some.inj hresult)
  refine ⟨?_, handler, hhandler, hafter.symm⟩
  rw [← hanswer]
  show (((handler a.use.args a.log a.world).1.bind _).bind _) = _
  rw [hok]
  rfl

theorem passes_iff {judge : Judge} {v : LuaVal} :
    judge.passes v = true ↔ judge v = .ok none := by
  rw [Judge.passes]
  rcases judge v with e | - | refusal
  · exact iff_of_false Bool.false_ne_true fun h => by cases h
  · exact iff_of_true rfl rfl
  · exact iff_of_false Bool.false_ne_true fun h => by cases h

theorem letThrough_eq_some {result : LuaVal} :
    letThrough encode order count room tools a = some result ↔
      toolResult tools a = some result ∧
        resultCap encode count room a.use.name result = .ok none ∧
          beatCap encode order count room a.log a.use.name result = .ok none := by
  rw [letThrough, Option.filter_eq_some_iff, Bool.and_eq_true, passes_iff, passes_iff]

theorem rendered_of_resultCap {name : String} {v : LuaVal} {o : Option LuaVal}
    (h : resultCap encode count room name v = .ok o) : ∃ t, rendered encode v = .ok t := by
  obtain ⟨t, ht, -⟩ := bind_eq_ok.mp h
  exact ⟨t, ht⟩

theorem answer_of_none {judge : Judge} {v : LuaVal} (h : judge v = .ok none) :
    judge.answer v = .ok v := by
  rw [Judge.answer, h]
  rfl

theorem answer_of_some {judge : Judge} {v refusal : LuaVal} (h : judge v = .ok (some refusal)) :
    judge.answer v = .ok refusal := by
  rw [Judge.answer, h]
  rfl

theorem tokensOf_eq (hcounts : Counts count f) {v : LuaVal} {t : String}
    (ht : rendered encode v = .ok t) : tokensOf encode count v = f t := by
  rw [tokensOf, ht]
  exact valueOf_is (hcounts t).1

section Facts

variable (hencode : Encodes encode text) (hperm : ∀ fields, (order fields).Perm fields)
  (hlimits : Limits room one budget) (hcounts : Counts count f)
  (hran : Ran (cappedTools encode order count room tools) beat log a)
  (hplain : PlainResult encode text count f room tools beat a)

include hcounts hplain in
theorem small_result {result : LuaVal} {t : String} (hresult : toolResult tools a = some result)
    (ht : rendered encode result = .ok t) : f t ≤ 2 ^ 53 := by
  have hsmall := hplain.small result t ⟨result, hresult, .inl rfl⟩ ht
  have hused := @usedOf_nonneg text count f beat hcounts a.log
  omega

include hencode hperm hlimits hcounts hran hplain in
/-- A result that was let through is within both limits, and is the answer. -/
theorem letThrough_spec {result : LuaVal}
    (h : letThrough encode order count room tools a = some result) :
    ∃ n : ℤ, tokensOf encode count result = n ∧ n ≤ one ∧
      usedOf text f beat a.log + n ≤ budget ∧ a.answer = .ok result := by
  obtain ⟨hresult, hresultCap, hbeatCap⟩ := letThrough_eq_some.mp h
  obtain ⟨t, ht⟩ := rendered_of_resultCap hresultCap
  refine ⟨f t, tokensOf_eq hcounts ht, ?_, ?_, ?_⟩
  · rcases resultCap_cases hlimits hcounts a.use.name ht (small_result hcounts hplain hresult ht)
      with ⟨hle, -⟩ | ⟨-, refusal, hrefusal, -⟩
    · exact hle
    · rw [hresultCap] at hrefusal
      cases hrefusal
  · rcases beatCap_cases hencode hperm hlimits hcounts hran hplain ⟨result, hresult, .inl rfl⟩ ht
      with ⟨hle, -⟩ | ⟨-, refusal, hrefusal, -⟩
    · exact hle
    · rw [hbeatCap] at hrefusal
      cases hrefusal
  · rw [(answer_eq hran hresult).1, answer_of_none hresultCap]
    exact answer_of_none hbeatCap

include hencode hperm hlimits hcounts hran hplain in
/-- The first result of a beat is let through where it is within its own limit. -/
theorem letThrough_first {result : LuaVal} (hresult : toolResult tools a = some result)
    (hfirst : IsFirst beat a.log) (hle : tokensOf encode count result ≤ one)
    {t : String} (ht : rendered encode result = .ok t) :
    letThrough encode order count room tools a = some result := by
  rw [tokensOf_eq hcounts ht, Int.cast_le] at hle
  have hused : usedOf text f beat a.log = 0 := by
    refine List.sum_eq_zero ?_
    intro n hn
    obtain ⟨ev, hev, rfl⟩ := List.mem_map.mp hn
    cases ev with
    | toolResult its callId ok j =>
        refine if_neg ?_
        rintro rfl
        exact hfirst callId ok j hev
    | _ => rfl
  refine letThrough_eq_some.mpr ⟨hresult, ?_, ?_⟩
  · rcases resultCap_cases hlimits hcounts a.use.name ht (small_result hcounts hplain hresult ht)
      with ⟨-, hnone⟩ | ⟨hlt, -⟩
    · exact hnone
    · omega
  · rcases beatCap_cases hencode hperm hlimits hcounts hran hplain ⟨result, hresult, .inl rfl⟩ ht
      with ⟨-, hnone⟩ | ⟨hlt, -⟩
    · exact hnone
    · have := hlimits.le
      omega

include hencode hperm hlimits hcounts hran hplain in
/-- What is not let through is refused, as data, and nothing else is changed. -/
theorem refused_spec {result : LuaVal} (hresult : toolResult tools a = some result)
    {t : String} (ht : rendered encode result = .ok t)
    (hnone : letThrough encode order count room tools a = none) :
    ∃ refusal, a.answer = .ok refusal ∧ IsRefusal refusal := by
  have hanswer := (answer_eq hran hresult).1
  rcases resultCap_cases hlimits hcounts a.use.name ht (small_result hcounts hplain hresult ht)
    with ⟨-, hone⟩ | ⟨-, refusal, hrefusal, hrefuses⟩
  · rw [answer_of_none hone] at hanswer
    rcases beatCap_cases hencode hperm hlimits hcounts hran hplain ⟨result, hresult, .inl rfl⟩ ht
      with ⟨-, hbeat⟩ | ⟨-, refusal, hrefusal, hrefuses⟩
    · rw [letThrough_eq_some.mpr ⟨hresult, hone, hbeat⟩] at hnone
      cases hnone
    · exact ⟨refusal, hanswer.trans (answer_of_some hrefusal), hrefuses.1⟩
  · -- the second cap judges the refusal of the first
    rw [answer_of_some hrefusal] at hanswer
    obtain ⟨hrefusal', j, hj⟩ := hrefuses
    have hjudged : Judged encode count room tools a refusal := ⟨result, hresult, .inr hrefusal⟩
    rcases beatCap_cases hencode hperm hlimits hcounts hran hplain hjudged
        (rendered_of_toJson hencode hj) with ⟨-, hbeat⟩ | ⟨-, second, hsecond, hrefuses⟩
    · exact ⟨refusal, hanswer.trans (answer_of_none hbeat), hrefusal'⟩
    · exact ⟨second, hanswer.trans (answer_of_some hsecond), hrefuses.1⟩

end Facts

end

/-! ### A beat -/

/-- The handlers that a beat runs, from a log on: the second of a pair may not be
recorded, and then the beat is over. -/
inductive BeatRun {W : Type} (tools : String → Option (Handler W)) (beat : String) :
    Log → List (HandlerRun W) → Prop
  | done (log : Log) : BeatRun tools beat log []
  | cut (log : Log) (a : HandlerRun W) (h : Ran tools beat log a) : BeatRun tools beat log [a]
  | aside (log : Log) (callId name : String) (args : Json) (ok : Bool) (result : Json)
      (more : List (HandlerRun W))
      (h : BeatRun tools beat (log ++ [.toolCall (some beat) callId name args,
        .toolResult (some beat) callId ok result]) more) : BeatRun tools beat log more
  | next (log : Log) (a : HandlerRun W) (ok : Bool) (result : Json) (more : List (HandlerRun W))
      (h : Ran tools beat log a)
      (hresult : ∀ v, a.answer = .ok v → toJson 2 (orEmpty v) = .ok result)
      (hmore : BeatRun tools beat (a.log ++ [.toolResult (some beat) a.use.id ok result]) more) :
      BeatRun tools beat log (a :: more)

section

variable {W : Type} {broken : Log → Option LuaVal} {tostring : LuaVal → String}
  {tools : String → Option (Handler W)} {beat : String}

theorem runPlanned_beatRun (planned : List (ToolUse × Decision)) (s : Loop W) :
    ∃ more, (s.runPlanned broken tostring tools beat planned).1.handled = s.handled ++ more ∧
      BeatRun tools beat s.log more := by
  induction planned generalizing s with
  | nil => exact ⟨[], (List.append_nil _).symm, .done _⟩
  | cons item rest ih =>
      obtain ⟨use, decision⟩ := item
      rw [Loop.runPlanned]
      cases hcall : s.record broken (.toolCall (some beat) use.id use.name use.args) with
      | error raised => exact ⟨[], (List.append_nil _).symm, .done _⟩
      | ok called =>
          obtain ⟨-, stored, hstored, rfl⟩ := record_eq_ok.mp hcall
          obtain ⟨args, -, rfl, -⟩ := written_toolCall hstored
          simp only
          -- the call is in the log before the handler, if one is found, runs
          rcases @dispatch_cases W tostring tools ⟨s.log ++ [.toolCall (some beat) use.id use.name
              args], s.world, s.handled⟩ use decision with ⟨text, hd⟩ |
            ⟨handler, answer, after, ok, result, -, htool, hans, hd, hresult⟩
          · simp only [hd]
            cases hrecord : Loop.record broken (⟨s.log ++ [.toolCall (some beat) use.id use.name args],
                s.world, s.handled⟩ : Loop W) (.toolResult (some beat) use.id false
                  (orEmpty (.str text))) with
            | error raised => exact ⟨[], (List.append_nil _).symm, .done _⟩
            | ok recorded =>
                obtain ⟨-, stored, hstored, rfl⟩ := record_eq_ok.mp hrecord
                obtain ⟨j, hj, rfl, -⟩ := written_toolResult hstored
                obtain ⟨more, hmore, hrun⟩ := ih ⟨_, s.world, s.handled⟩
                refine ⟨more, hmore, .aside _ use.id use.name args false j more ?_⟩
                rw [List.append_assoc] at hrun
                exact hrun
          · simp only [hd]
            have hran : Ran tools beat s.log ⟨use, s.log ++ [.toolCall (some beat) use.id use.name args],
                s.world, answer, after⟩ := ⟨⟨args, rfl⟩, handler, htool, hans⟩
            cases hrecord : Loop.record broken (⟨s.log ++ [.toolCall (some beat) use.id use.name args],
                after, s.handled ++ [⟨use, s.log ++ [.toolCall (some beat) use.id use.name args],
                  s.world, answer, after⟩]⟩ : Loop W) (.toolResult (some beat) use.id ok
                    (orEmpty result)) with
            | error raised => exact ⟨[_], rfl, .cut _ _ hran⟩
            | ok recorded =>
                obtain ⟨-, stored, hstored, rfl⟩ := record_eq_ok.mp hrecord
                obtain ⟨j, hj, rfl, -⟩ := written_toolResult hstored
                obtain ⟨more, hmore, hrun⟩ := ih ⟨_, after, _⟩
                refine ⟨_ :: more, hmore.trans (List.append_assoc _ _ _), .next _ _ ok j more hran ?_ hrun⟩
                intro v hv
                rcases hresult with ⟨hok, -⟩ | ⟨raised, text, hraised, -⟩
                · rw [hok] at hv
                  obtain rfl := Except.ok.inj hv
                  exact hj
                · rw [hraised] at hv
                  cases hv

theorem BeatRun.ran {log : Log} {runs : List (HandlerRun W)} (h : BeatRun tools beat log runs) :
    ∀ a ∈ runs, ∃ log, Ran tools beat log a := by
  induction h with
  | done log =>
      intro a ha
      cases ha
  | cut log a h =>
      intro b hb
      obtain rfl := List.mem_singleton.mp hb
      exact ⟨log, h⟩
  | aside log callId name args ok result more _ ih => exact ih
  | next log a ok result more h _ _ ih => exact List.forall_mem_cons.mpr ⟨⟨log, h⟩, ih⟩

variable {encode : LuaVal → Except LuaVal String} {text : Json → String}
  {order : List (LuaKey × LuaVal) → List (LuaKey × LuaVal)} {count : String → LuaNumber}
  {f : String → ℤ} {room : Room} {one budget : ℤ}

/-- What was let through so far is no more than what the log says of the beat, and
no more than the budget. -/
theorem together_le (hencode : Encodes encode text) (hperm : ∀ fields, (order fields).Perm fields)
    (hlimits : Limits room one budget) (hcounts : Counts count f) {log : Log}
    {runs : List (HandlerRun W)}
    (h : BeatRun (cappedTools encode order count room tools) beat log runs)
    (hplain : ∀ a ∈ runs, PlainResult encode text count f room tools beat a) (past : ℚ)
    (hused : past ≤ usedOf text f beat log) (hpast : past ≤ budget) :
    past + ((runs.filterMap (letThrough encode order count room tools)).map
      (tokensOf encode count)).sum ≤ budget := by
  have hcalled : ∀ {log : Log} {a : HandlerRun W},
      Ran (cappedTools encode order count room tools) beat log a →
        usedOf text f beat a.log = usedOf text f beat log := by
    intro log a hran
    obtain ⟨j, hlog⟩ := hran.called
    rw [hlog, usedOf_append]
    exact add_zero _
  have hresult : ∀ (log : Log) (callId : String) (ok : Bool) (j : Json),
      usedOf text f beat (log ++ [.toolResult (some beat) callId ok j]) =
        usedOf text f beat log + storedTokens text f j := by
    intro log callId ok j
    rw [usedOf_append]
    simp [usedOf, eventTokens]
  induction h generalizing past with
  | done log => simpa using hpast
  | cut log a hran =>
      cases hthrough : letThrough encode order count room tools a with
      | none => simpa [hthrough] using hpast
      | some result =>
          obtain ⟨n, hn, -, hle, -⟩ := letThrough_spec hencode hperm hlimits hcounts hran
            (hplain a List.mem_cons_self) hthrough
          rw [hcalled hran] at hle
          have hle' : (usedOf text f beat log : ℚ) + n ≤ budget := by exact_mod_cast hle
          simp only [List.filterMap_cons, hthrough, List.filterMap_nil, List.map_cons,
            List.map_nil, List.sum_cons, List.sum_nil, add_zero, hn]
          linarith
  -- no handler ran, so the stored result counts and nothing is let through
  | aside log callId name args ok j more _ ih =>
      refine ih hplain past ?_ hpast
      have hstored := @eventTokens_nonneg text count f beat hcounts
        (.toolResult (some beat) callId ok j)
      rw [eventTokens, if_pos rfl] at hstored
      have hlog : log ++ [.toolCall (some beat) callId name args, .toolResult (some beat) callId ok j] =
          (log ++ [.toolCall (some beat) callId name args]) ++
            [.toolResult (some beat) callId ok j] := by simp
      rw [hlog, hresult, usedOf_append]
      have hcall : usedOf text f beat [.toolCall (some beat) callId name args] = 0 := rfl
      rw [hcall]
      push_cast
      have hstored' : (0 : ℚ) ≤ storedTokens text f j := by exact_mod_cast hstored
      linarith
  | next log a ok j more hran hj _ ih =>
      obtain ⟨ha, hmore⟩ := List.forall_mem_cons.mp hplain
      have hstored := @eventTokens_nonneg text count f beat hcounts
        (.toolResult (some beat) a.use.id ok j)
      rw [eventTokens, if_pos rfl] at hstored
      have hstored' : (0 : ℚ) ≤ storedTokens text f j := by exact_mod_cast hstored
      have hnext : usedOf text f beat (a.log ++ [.toolResult (some beat) a.use.id ok j]) =
          usedOf text f beat log + storedTokens text f j := by rw [hresult, hcalled hran]
      cases hthrough : letThrough encode order count room tools a with
      | none =>
          simp only [List.filterMap_cons, hthrough]
          refine ih hmore past ?_ hpast
          rw [hnext]
          push_cast
          linarith
      | some result =>
          obtain ⟨n, hn, -, hle, hanswer⟩ := letThrough_spec hencode hperm hlimits hcounts hran
            ha hthrough
          rw [hcalled hran] at hle
          have hle' : (usedOf text f beat log : ℚ) + n ≤ budget := by exact_mod_cast hle
          -- what is stored of it is counted as it was when it was let through
          have hback := ha.back result j (letThrough_eq_some.mp hthrough).1 (hj result hanswer)
          rw [hn] at hback
          have hrest := ih hmore (past + n) (by rw [hnext]; push_cast; linarith) (by linarith)
          simp only [List.filterMap_cons, hthrough, List.map_cons, List.sum_cons, hn]
          linarith

/-- **The two caps bound a beat**, of whatever calls and answers, from any log on:
each result and all together, the first of a beat never refused within its own
limit, and what is refused answered as data. -/
theorem caps_bound (hencode : Encodes encode text) (hperm : ∀ fields, (order fields).Perm fields)
    (hlimits : Limits room one budget) (hcounts : Counts count f)
    (planned : List (ToolUse × Decision)) (s : Loop W) (runs : List (HandlerRun W))
    (hruns : (s.runPlanned broken tostring (cappedTools encode order count room tools) beat
      planned).1.handled = s.handled ++ runs)
    (hplain : ∀ a ∈ runs, PlainResult encode text count f room tools beat a) :
    Bounded encode order count room tools beat runs := by
  obtain ⟨more, hmore, hrun⟩ := @runPlanned_beatRun W broken tostring
    (cappedTools encode order count room tools) beat planned s
  obtain rfl : more = runs := List.append_cancel_left (hmore.symm.trans hruns)
  constructor
  case each =>
    intro a ha result hthrough
    obtain ⟨log, hran⟩ := hrun.ran a ha
    obtain ⟨n, hn, hle, -⟩ := letThrough_spec hencode hperm hlimits hcounts hran (hplain a ha)
      hthrough
    rw [hn, hlimits.result]
    show (n : ℚ) ≤ (one : ℚ)
    exact_mod_cast hle
  case together =>
    have hsum := together_le hencode hperm hlimits hcounts hrun hplain 0
      (by exact_mod_cast usedOf_nonneg hcounts s.log)
      (by exact_mod_cast hlimits.nonneg.trans hlimits.le)
    rw [zero_add] at hsum
    rw [hlimits.beat]
    exact hsum
  case first =>
    intro a ha result t hresult ht hfirst hle
    obtain ⟨log, hran⟩ := hrun.ran a ha
    rw [hlimits.result] at hle
    exact letThrough_first hencode hperm hlimits hcounts hran (hplain a ha) hresult hfirst hle ht
  case refused =>
    intro a ha result t hresult ht hnone
    obtain ⟨log, hran⟩ := hrun.ran a ha
    obtain ⟨refusal, hanswer, hrefusal⟩ := refused_spec hencode hperm hlimits hcounts hran
      (hplain a ha) hresult ht hnone
    exact ⟨refusal, hanswer, hrefusal, (answer_eq hran hresult).2⟩
  case own =>
    intro a ha events hevents
    obtain ⟨log, hran⟩ := hrun.ran a ha
    obtain ⟨events', hevents', hread⟩ := @wholeRows_eq order _ "policy.beat_cap"
      (hplain a ha).short (hplain a ha).shallow
    obtain rfl := Except.ok.inj (hevents.symm.trans hevents')
    exact firstCallBeat_eq hran hread

end

/-! ### Single beats -/

/-- A room of four tokens, of which a result may take one, and so may a beat. -/
def roomOfFour : Room where
  port := ⟨fun _ _ => .error .nil, fun _ => .error .nil⟩
  conf := .nil
  profile := .nil
  window := .int 4
  maxOutput := .int 0
  limit := .int 4
  held := .int 0
  reserve := .int 0
  resultShare := .float (1 / 4)
  resultLimit := .int 1
  beatShare := .float (1 / 4)
  beatBudget := .int 1
  callReserve := none

/-- A token for every four bytes that are begun. -/
def byFours (t : String) : LuaNumber := .int ((t.utf8ByteSize + 3) / 4 : ℕ)

/-- A token and a half, whatever the text. -/
def oneAndAHalf (_ : String) : LuaNumber := .float (3 / 2)

/-- `std.json.encode`, as far as it is asked here. -/
def encodeNull : LuaVal → Except LuaVal String
  | .nil => .ok "null"
  | _ => .ok "\x7b\x7d"

/-- A tool that answers this. -/
def answering (v : LuaVal) : String → Option (Handler Unit) := fun _ =>
  some fun _ _ w => (.ok v, w)

/-- The handlers of a beat of so many calls. -/
def handledIn (encode : LuaVal → Except LuaVal String) (count : String → LuaNumber) (room : Room)
    (v : LuaVal) (uses : List ToolUse) : List (HandlerRun Unit) :=
  ((⟨[], (), []⟩ : Loop Unit).runPlanned (fun _ => none) (textOf fun _ => "")
    (cappedTools encode id count room (answering v)) "b"
    (uses.map fun use => (use, .run))).1.handled

theorem counts_byFours : Counts byFours fun t => ((t.utf8ByteSize + 3) / 4 : ℕ) :=
  fun _ => ⟨.inl rfl, Int.natCast_nonneg _⟩

theorem encodes_here : Encodes encodeHere textHere := by
  intro v j h
  rw [encodeHere, h]

/-- A room in which the results of a beat may take two tokens. -/
def roomOfTwoResults : Room :=
  { roomOfFour with beatShare := .float (1 / 2), beatBudget := .int 2 }

def threeWords : List ToolUse := [numberUse "1" "say", numberUse "2" "say", numberUse "3" "say"]

def sayCall (callId : String) : LogEvent Json :=
  .toolCall (some "b") callId "say" (.obj [("line", .num (.int 1))])

def saidResult (callId : String) : LogEvent Json := .toolResult (some "b") callId true (.str "said")

/-- Of three words, two are let through. -/
theorem caps_bound_said :
    (handledIn encodeHere byFours roomOfTwoResults (.str "said") threeWords).filterMap
        (letThrough encodeHere id byFours roomOfTwoResults (answering (.str "said"))) =
      [.str "said", .str "said"] ∧
    Bounded encodeHere id byFours roomOfTwoResults (answering (.str "said")) "b"
      (handledIn encodeHere byFours roomOfTwoResults (.str "said") threeWords) := by
  refine ⟨rfl, caps_bound encodes_here (fun _ => .refl _)
    ⟨rfl, rfl, Int.one_nonneg, by decide, by norm_num⟩ counts_byFours
    (threeWords.map fun use => (use, .run)) ⟨[], (), []⟩ _ rfl ?_⟩
  obtain ⟨a, b, c, hruns, hnames, ha, hb, hc⟩ : ∃ a b c,
      handledIn encodeHere byFours roomOfTwoResults (.str "said") threeWords = [a, b, c] ∧
      (∀ run ∈ [a, b, c], run.use.name = "say") ∧ a.log = [sayCall "1"] ∧
      b.log = [sayCall "1", saidResult "1", sayCall "2"] ∧
      c.log = [sayCall "1", saidResult "1", sayCall "2", saidResult "2", sayCall "3"] := by
    refine ⟨_, _, _, rfl, ?_, rfl, rfl, rfl⟩
    simp only [List.forall_mem_cons, List.not_mem_nil, false_implies, implies_true, and_true]
    exact ⟨rfl, rfl, rfl⟩
  have hlogs : ∀ run ∈ [a, b, c], run.log.length ≤ DEFAULT_LIMIT ∧
      usedOf textHere (fun t => ((t.utf8ByteSize + 3) / 4 : ℕ)) "b" run.log ≤ 2 ∧
      ∀ ev ∈ run.log, depthRead ev ≤ maxDepth ∧ ResultWellFormed ev := by
    simp only [List.forall_mem_cons, List.not_mem_nil, false_implies, implies_true, and_true, ha,
      hb, hc]
    have hcall : ∀ callId, depthRead (sayCall callId) ≤ maxDepth ∧
        ResultWellFormed (sayCall callId) :=
      fun callId => ⟨of_decide_eq_true rfl, trivial⟩
    have hsaid : ∀ callId, depthRead (saidResult callId) ≤ maxDepth ∧
        ResultWellFormed (saidResult callId) :=
      fun callId => ⟨of_decide_eq_true rfl, trivial⟩
    exact ⟨⟨by decide, by decide, hcall _⟩, ⟨by decide, by decide, hcall _, hsaid _, hcall _⟩,
      by decide, by decide, hcall _, hsaid _, hcall _, hsaid _, hcall _⟩
  rw [hruns]
  intro run hrun
  have hname := hnames run hrun
  obtain ⟨hlength, hused, hevents⟩ := hlogs run hrun
  constructor
  case short => exact hlength
  case shallow => exact fun ev hev => (hevents ev hev).1
  case values => exact fun ev hev => (hevents ev hev).2
  case small =>
    rintro v t ⟨result, hresult, hv⟩ ht
    obtain rfl : LuaVal.str "said" = result := Option.some.inj hresult
    obtain rfl : v = .str "said" := by
      refine hv.resolve_right fun h => ?_
      rw [hname] at h
      cases h
    obtain rfl : "said" = t := Except.ok.inj ht
    exact (Int.add_le_add_right hused _).trans (by decide)
  case back =>
    intro result j hresult hj
    obtain rfl : LuaVal.str "said" = result := Option.some.inj hresult
    obtain rfl : Json.str "said" = j := Except.ok.inj hj
    exact le_rfl

def noInteger : LuaVal := .str "number has no integer representation"

theorem part_raises (name : String) :
    resultCap encodeNull oneAndAHalf roomOfFour name (.str "text") = .error noInteger := by
  have hover : (LuaNumber.float (3 / 2)).le (.int 1) = false := by norm_num [LuaNumber.le]
  have hformat : formatInt (.float (3 / 2)) =
      .error (.str "number has no integer representation") := by
    norm_num [formatInt, LuaNumber.floor, LuaNumber.isWhole]
  have hshown : shownInt (.float (3 / 2)) = .error noInteger := by
    rw [shownInt, hformat]
    rfl
  have hunfold : resultCap encodeNull oneAndAHalf roomOfFour name (.str "text") =
      if (LuaNumber.float (3 / 2)).le (.int 1) then .ok none
      else (resultTooLarge name (.float (3 / 2)) (.int 1)).map some := rfl
  rw [hunfold, hover, resultTooLarge, hshown]
  rfl

theorem raises_for_part :
    cappedTools encodeNull id oneAndAHalf roomOfFour (answering (.str "text")) =
      fun _ => some fun _ _ w => (.error noInteger, w) := by
  funext name
  refine congrArg some ?_
  funext args log w
  show (((resultCap encodeNull oneAndAHalf roomOfFour name).answer (.str "text")).bind _, w) = _
  rw [Judge.answer, part_raises]
  rfl

theorem letThrough_of_raised (a : HandlerRun Unit) :
    letThrough encodeNull id oneAndAHalf roomOfFour (answering (.str "text")) a = none := by
  have hpasses : (resultCap encodeNull oneAndAHalf roomOfFour a.use.name).passes (.str "text") =
      false := by
    rw [Judge.passes, part_raises]
  show Option.filter _ (some (LuaVal.str "text")) = none
  rw [Option.filter, hpasses]
  rfl

/-- **Nothing counts as a token and is stored as none**: two handlers that answer
nothing are both let through, for two tokens of the one.  And a count that is no
whole number is refused with a raise. -/
theorem caps_exceeded :
    ¬ Bounded encodeNull id byFours roomOfFour (answering .nil) "b"
        (handledIn encodeNull byFours roomOfFour .nil [numberUse "1" "say", numberUse "2" "say"]) ∧
      ¬ Bounded encodeNull id oneAndAHalf roomOfFour (answering (.str "text")) "b"
        (handledIn encodeNull oneAndAHalf roomOfFour (.str "text") [numberUse "1" "say"]) := by
  constructor
  · intro h
    have htwo : ((handledIn encodeNull byFours roomOfFour .nil
        [numberUse "1" "say", numberUse "2" "say"]).filterMap
        (letThrough encodeNull id byFours roomOfFour (answering .nil))) = [.nil, .nil] := rfl
    have htogether := h.together
    rw [htwo] at htogether
    have hnull : tokensOf encodeNull byFours .nil = 1 := rfl
    have hbudget : valueOf roomOfFour.beatBudget = 1 := rfl
    rw [List.map_cons, List.map_cons, List.map_nil, hnull, hbudget] at htogether
    norm_num at htogether
  · intro h
    obtain ⟨a, hone, hraised⟩ : ∃ a, handledIn encodeNull oneAndAHalf roomOfFour (.str "text")
        [numberUse "1" "say"] = [a] ∧ a.answer = .error noInteger := by
      rw [handledIn, raises_for_part]
      exact ⟨_, rfl, rfl⟩
    rw [hone] at h
    obtain ⟨refusal, hanswer, -⟩ := h.refused a List.mem_cons_self (.str "text") "text" rfl rfl
      (letThrough_of_raised _)
    rw [hraised] at hanswer
    cases hanswer

end AgentBlock.Policy
