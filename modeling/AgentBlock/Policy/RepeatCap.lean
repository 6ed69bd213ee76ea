/-
AgentBlock/Policy/RepeatCap.lean

The cap on repeated calls: a tool that was called with these arguments often
enough since the last reset is not called again.

The count is read off the log.  Two calls are one where their keys are, and a
result resets where its id is that of an earlier call of a reset tool.  `tostring`
of what has no text of its own (`shown`) and `std.json.encode` are parameters.

Main results:

* `callKey_eq` — the key of arguments is that of the JSON value they are
  (`callKeyOf`), whichever way their tables are walked;
* `count_eq` — what is counted, of a log that can be read;
* `repeats_counted` — a call is refused exactly from its repetition past the
  maximum on, of every log whose calls and results are told apart (`ToldApart`);
* `number_and_text_count_alike`, `reset_by_another_result` — of logs where they are
  not.
-/
import AgentBlock.Lib.Quoted
import AgentBlock.Lib.Split
import AgentBlock.Shell.ToolLoop
import Mathlib.Data.List.Sort
import Mathlib.Data.String.Basic

namespace AgentBlock.Policy

open Bridge Shell
open Except (bind_eq_ok map_eq_ok)

/-! ### The key of a call -/

/-- The field of a table under a string. -/
def fieldAt : List (LuaKey × LuaVal) → String → LuaVal
  | [], _ => .nil
  | (.str s, v) :: rest, key => if s = key then v else fieldAt rest key
  | _ :: rest, key => fieldAt rest key

section

variable (shown : LuaVal → String) (encode : LuaVal → Except LuaVal String)

/-- `tostring`. -/
def textOf : LuaVal → String
  | .nil => "nil"
  | .bool b => if b then "true" else "false"
  | .num (.int n) => toString n
  | .str s => s
  | v => shown v

/-- `tostring` of a key. -/
def keyText : LuaKey → String
  | .str s => s
  | .int n => toString n
  | .float text => text
  | .other type => shown (.other type)

/-- What stands for a value in a key: a table is encoded. -/
def valueText : LuaVal → Except LuaVal String
  | .table tagged items fields => encode (.table tagged items fields)
  | v => .ok (textOf shown v)

/-- `pairs` of a sequence meets its indices. -/
def indices (n : ℕ) : List String := (List.range n).map fun i => toString (i + 1)

/-- Each key with the text of the field that is found under it. -/
def partsOf (fields : List (LuaKey × LuaVal)) : List String → Except LuaVal (List String)
  | [] => .ok []
  | key :: keys => do
      let text ← valueText shown encode (fieldAt fields key)
      let parts ← partsOf fields keys
      .ok ((key ++ "=" ++ text) :: parts)

/-- What "the same call" compares. -/
def callKey (name : String) : LuaVal → Except LuaVal String
  | .table _ items fields =>
      let keys := (indices items.length ++ fields.map fun f => keyText shown f.1).insertionSort
        (· ≤ ·)
      (partsOf shown encode fields keys).map fun parts =>
        name ++ "\x00" ++ String.intercalate "\x01" parts
  | args => .ok (name ++ "\x00" ++ textOf shown args)

end

/-! ### The count -/

/-- `v == false`. -/
def isFalse : LuaVal → Bool
  | .bool b => !b
  | _ => false

def fieldOf : LuaVal → String → LuaVal
  | .table _ _ fields, key => fieldAt fields key
  | _, _ => .nil

/-- Whether a result says its tool did what it was asked. -/
def resultSucceeded (ok : Bool) (result : LuaVal) : Bool := ok && !isFalse (fieldOf result "ok")

def DEFAULT_REPEAT_MAX : ℕ := 2

/-- The cap's two options, as it was built with them. -/
structure RepeatCap where
  max : ℕ := DEFAULT_REPEAT_MAX
  resets : List String := []
  positive : 1 ≤ max
  named : ∀ name ∈ resets, name ≠ ""

/-- The walk over a log: the events so far, the ids of the reset tools' calls, and
how many events the last reset leaves out. -/
structure Scan where
  index : ℕ
  resetCalls : List String
  since : ℕ

def Scan.start : Scan := ⟨0, [], 0⟩

def Scan.step {V : Type} (resets : List String) (succeeded : Bool → V → Bool) (s : Scan) :
    LogEvent V → Scan
  | .toolCall _ callId name _ =>
      ⟨s.index + 1, if name ∈ resets then callId :: s.resetCalls else s.resetCalls, s.since⟩
  | .toolResult _ callId ok result =>
      ⟨s.index + 1, s.resetCalls,
        if callId ∈ s.resetCalls ∧ succeeded ok result then s.index + 1 else s.since⟩
  | .other _ _ _ => ⟨s.index + 1, s.resetCalls, s.since⟩

section

variable (shown : LuaVal → String) (encode : LuaVal → Except LuaVal String)
  (order : List (LuaKey × LuaVal) → List (LuaKey × LuaVal))

/-- How many of these calls have this key. -/
def countKey (key : String) : List (LogEvent LuaVal) → Except LuaVal ℕ
  | [] => .ok 0
  | .toolCall _ _ name args :: rest => do
      let its ← callKey shown encode name args
      let n ← countKey key rest
      .ok (if its = key then n + 1 else n)
  | _ :: rest => countKey key rest

namespace RepeatCap

variable (cap : RepeatCap)

/-- How many times this key has been called since the last reset. -/
def count (log : Log) (key : String) : Except LuaVal ℕ := do
  let evs ← wholeRows order log "policy.repeat_cap"
  let scan := evs.foldl (Scan.step cap.resets resultSucceeded) Scan.start
  countKey shown encode key (evs.drop scan.since)

/-- The refusal, which is answered and not raised. -/
def refusal (name : String) (seen : ℕ) : LuaVal :=
  .table false [] [(.str "ok", .bool false), (.str "reason", .str "repeated"),
    (.str "times", .num (.int seen)), (.str "max", .num (.int cap.max)),
    (.str "error", .str ("'" ++ name ++ "' was already called with exactly these arguments " ++
      toString (seen - 1) ++ " times and nothing has changed since. The answer would be the " ++
      "same. Act on what you already saw instead of asking again."))]

/-- The handler under the cap. -/
def handler {W : Type} (name : String) (handler : Handler W) : Handler W := fun args log world =>
  match callKey shown encode name args >>= count shown encode order cap log with
  | .error raised => (.error raised, world)
  | .ok seen =>
      if seen ≤ cap.max then handler args log world else (.ok (cap.refusal name seen), world)

/-- **`policy.repeat_cap`**: every tool of a device, under the cap. -/
def wrap {W : Type} (tools : String → Option (Handler W)) (name : String) : Option (Handler W) :=
  (tools name).map (cap.handler shown encode order name)

end RepeatCap

end

/-! ### Statement -/

section

variable (shown : LuaVal → String) (text : Json → String)

/-- What stands for a JSON value in a key, `text` what it is encoded as. -/
def jsonText : Json → String
  | .null => shown .null
  | .bool b => textOf shown (.bool b)
  | .num n => textOf shown (.num (numberIn n))
  | .str s => s
  | j => text j

/-- The key of a call whose arguments are this JSON value: of an array it has the
number of its items only. -/
def callKeyOf (name : String) : Json → String
  | .arr xs =>
      name ++ "\x00" ++ String.intercalate "\x01"
        (((indices xs.length).insertionSort (· ≤ ·)).map fun key => key ++ "=" ++ textOf shown .nil)
  | .obj members =>
      name ++ "\x00" ++ String.intercalate "\x01"
        (members.map fun m => m.1 ++ "=" ++ jsonText shown text m.2)
  | j => name ++ "\x00" ++ jsonText shown text j

end

/-- What stands under a key, by how its text begins. -/
inductive Kind where
  | null
  | bool
  | num
  | str
  | table
  deriving DecidableEq

def kindOf : Json → Kind
  | .null => .null
  | .bool _ => .bool
  | .num _ => .num
  | .str _ => .str
  | .arr _ => .table
  | .obj _ => .table

mutual

/-- No map in a value has two keys, the order of which is an encoder's own. -/
def OneKeyed : Json → Prop
  | .arr xs => OneKeyedItems xs
  | .obj members => members.length ≤ 1 ∧ OneKeyedMembers members
  | _ => True

def OneKeyedItems : List Json → Prop
  | [] => True
  | x :: xs => OneKeyed x ∧ OneKeyedItems xs

def OneKeyedMembers : List (String × Json) → Prop
  | [] => True
  | (_, x) :: members => OneKeyed x ∧ OneKeyedMembers members

end

/-- What `tostring` and `std.json.encode` write.  Nothing is said of a map of two
keys, whose order no encoder promises: the source sorts the keys of the arguments
for that. -/
structure Spells (shown : LuaVal → String) (encode : LuaVal → Except LuaVal String)
    (text : Json → String) : Prop where
  /-- `userdata` and an address. -/
  null : (shown .null).toList.head? = some 'u' ∧ '\x01' ∉ (shown .null).toList
  number : ∀ n, Quoted.IsNumeral (textOf shown (.num (numberIn n)))
  encoded : ∀ v j, toJson 0 v = .ok j → OneKeyed j → encode v = .ok (text j)
  /-- JSON text, in which a control character is escaped. -/
  table : ∀ j, kindOf j = .table → ((text j).toList.head? = some '[' ∨
    (text j).toList.head? = some '\x7b') ∧ '\x01' ∉ (text j).toList

def isNo : Option Json → Bool
  | some (.bool b) => !b
  | _ => false

/-- Whether a stored result refuses in what it answers. -/
def saysNo : Json → Bool
  | .obj members => isNo (Obj.get? members "ok")
  | _ => false

/-- Whether a stored result says its tool did what it was asked. -/
def succeeded (ok : Bool) (result : Json) : Bool := ok && !saysNo result

/-- The tool of the call a result under this id answers: the newest under it. -/
def ownTool (before : Log) (callId : String) : Option String :=
  before.foldl (fun tool ev =>
    match ev with
    | .toolCall _ other name _ => if other = callId then some name else tool
    | _ => tool) none

/-- Whether an event after these is the successful result of a reset tool's own
call. -/
def isReset (resets : List String) (before : Log) : LogEvent Json → Bool
  | .toolResult _ callId ok result =>
      succeeded ok result && (ownTool before callId).any (· ∈ resets)
  | _ => false

/-- The events since the newest reset. -/
def sinceReset (resets : List String) (log : Log) : Log :=
  (log.foldl (fun (s : Log × Log) ev =>
    (s.1 ++ [ev], if isReset resets s.1 ev then [] else s.2 ++ [ev])) ([], [])).2

/-- A call of this tool with arguments equal to these. -/
def IsCall (name : String) (args : Json) : LogEvent Json → Prop
  | .toolCall _ _ name' args' => name' = name ∧ Json.Same args' args
  | _ => False

open Classical in
/-- How many calls of this tool with arguments equal to these stand since the newest
reset. -/
noncomputable def repeats (resets : List String) (log : Log) (name : String) (args : Json) : ℕ :=
  (sinceReset resets log).countP fun ev => decide (IsCall name args ev)

/-- A successful result under the id of an earlier call of a reset tool answers
one. -/
def ResetsTold (resets : List String) (log : Log) : Prop :=
  ∀ before beat callId ok result after,
    log = before ++ .toolResult beat callId ok result :: after → succeeded ok result = true →
    (∃ beat name args, .toolCall beat callId name args ∈ before ∧ name ∈ resets) →
    isReset resets before (.toolResult beat callId ok result) = true

/-- A call whose key can be taken apart: of a map, with nothing in it that the key
is put together with. -/
structure Separable (name : String) (args : Json) : Prop where
  name : '\x00' ∉ name.toList
  map : ∃ members, args = .obj members ∧ ∀ m ∈ members, '=' ∉ m.1.toList ∧ '\x01' ∉ m.1.toList ∧
    (∀ s, m.2 = .str s → '\x01' ∉ s.toList) ∧ OneKeyed m.2

/-- Two values under one key of two calls of one tool. -/
def Beside (log : Log) (v w : Json) : Prop :=
  ∃ beat callId beat' callId' name members members' key,
    .toolCall beat callId name (.obj members) ∈ log ∧
    .toolCall beat' callId' name (.obj members') ∈ log ∧ (key, v) ∈ members ∧ (key, w) ∈ members'

/-- What is in a log is told apart: its calls by what they were called with, and its
results by the tools they answer. -/
structure ToldApart (shown : LuaVal → String) (text : Json → String) (resets : List String)
    (log : Log) : Prop where
  /-- The log can be read, in one read. -/
  readable : log.length ≤ DEFAULT_LIMIT ∧ ∀ ev ∈ log, depthRead ev ≤ maxDepth
  separable : ∀ beat callId name args, .toolCall beat callId name args ∈ log → Separable name args
  /-- A string is not the text of something else, -/
  strings : ∀ s w, Beside log (.str s) w → kindOf w ≠ .str → jsonText shown text w ≠ s
  /-- two numbers are written alike only if they are one, -/
  numbers : ∀ m n, Beside log (.num m) (.num n) →
    jsonText shown text (.num m) = jsonText shown text (.num n) → m = n
  /-- and so are two tables. -/
  tables : ∀ v w, Beside log v w → kindOf v = .table → kindOf w = .table → text v = text w → v = w
  /-- No number is written in two ways. -/
  spelled : ∀ v w, Beside log v w → Json.Spelled v.numbers w.numbers
  /-- No other tool is called under the id of an earlier call of a reset tool. -/
  ids : ∀ before beat callId name args after,
    log = before ++ .toolCall beat callId name args :: after → name ∉ resets →
    ∀ beat' name' args', .toolCall beat' callId name' args' ∈ before → name' ∉ resets

/-- A handler under the cap was answered as it should be: refused from the
repetition past the maximum on, with nothing moved, and run before. -/
structure CountsExactly {W : Type} (shown : LuaVal → String)
    (encode : LuaVal → Except LuaVal String)
    (order : List (LuaKey × LuaVal) → List (LuaKey × LuaVal)) (cap : RepeatCap)
    (tools : String → Option (Handler W)) (a : HandlerRun W) : Prop where
  answer : ∃ handler args, tools a.use.name = some handler ∧ toJson 2 a.use.args = .ok args ∧
    (a.answer, a.after) =
      if cap.max < repeats cap.resets a.log a.use.name args then
        (.ok (cap.refusal a.use.name (repeats cap.resets a.log a.use.name args)), a.world)
      else handler a.use.args a.log a.world
  same : ∀ args beat callId name' args' read, toJson 2 a.use.args = .ok args →
    .toolCall beat callId name' args' ∈ a.log → toLuaVal order 3 args' = .ok read →
    (callKey shown encode a.use.name a.use.args = callKey shown encode name' read ↔
      a.use.name = name' ∧ Json.Same args args')

/-! ### Keys -/

section

variable {shown : LuaVal → String} {encode : LuaVal → Except LuaVal String} {text : Json → String}
  {order : List (LuaKey × LuaVal) → List (LuaKey × LuaVal)} {depth : ℕ}

/-- A field is found under its key, where no other has it. -/
theorem fieldAt_of_mem {fields : List (LuaKey × LuaVal)} {key : String} {v : LuaVal}
    (hnodup : (fields.map Prod.fst).Nodup) (h : (.str key, v) ∈ fields) :
    fieldAt fields key = v := by
  induction fields with
  | nil => exact absurd h List.not_mem_nil
  | cons f fields ih =>
      obtain ⟨k, w⟩ := f
      obtain ⟨hfresh, hrest⟩ := List.nodup_cons.mp hnodup
      rcases List.mem_cons.mp h with heq | hmem
      · cases heq
        exact if_pos rfl
      · have hkey : LuaKey.str key ∈ fields.map Prod.fst := List.mem_map_of_mem hmem
        cases k with
        | str s =>
            rw [fieldAt, if_neg fun (hs : s = key) => hfresh (hs ▸ hkey)]
            exact ih hrest hmem
        | _ => exact ih hrest hmem

theorem fieldAt_of_not_mem {fields : List (LuaKey × LuaVal)} {key : String}
    (h : LuaKey.str key ∉ fields.map Prod.fst) : fieldAt fields key = .nil := by
  induction fields with
  | nil => rfl
  | cons f fields ih =>
      obtain ⟨k, w⟩ := f
      obtain ⟨hne, hrest⟩ := not_or.mp fun hmem => h (List.mem_cons.mpr hmem)
      cases k with
      | str s =>
          rw [fieldAt, if_neg fun hs => hne (congrArg LuaKey.str hs.symm)]
          exact ih hrest
      | _ => exact ih hrest

/-- The fields of an object, in whatever order they are met. -/
structure FieldsOf (order : List (LuaKey × LuaVal) → List (LuaKey × LuaVal)) (depth : ℕ)
    (members : List (String × Json)) (met : List (LuaKey × LuaVal)) : Prop where
  keys : met.map Prod.fst |>.Perm (members.map fun m => LuaKey.str m.1)
  found : ∀ m ∈ members, ∃ v, toLuaVal order depth m.2 = .ok v ∧ fieldAt met m.1 = v

theorem fieldsOf_order (hperm : ∀ fields, (order fields).Perm fields)
    {members : List (String × Json)} {fields : List (LuaKey × LuaVal)}
    (hkeys : (members.map Prod.fst).Nodup) (h : membersIn order depth members = .ok fields) :
    FieldsOf order depth members (order fields) := by
  have heach := membersIn_forall h
  have hfst : fields.map Prod.fst = members.map fun m => LuaKey.str m.1 := by
    clear h hkeys
    induction heach with
    | nil => rfl
    | cons hf _ ih => rw [List.map_cons, List.map_cons, ih, hf.1]
  have hmet : ((order fields).map Prod.fst).Perm (members.map fun m => LuaKey.str m.1) :=
    hfst ▸ (hperm fields).map Prod.fst
  have hnodup : ((order fields).map Prod.fst).Nodup := by
    refine hmet.nodup_iff.mpr ?_
    rw [show (members.map fun m => LuaKey.str m.1) = (members.map Prod.fst).map LuaKey.str by
      rw [List.map_map]; rfl]
    exact hkeys.map fun a b hab => LuaKey.str.inj hab
  refine ⟨hmet, fun m hm => ?_⟩
  obtain ⟨f, hf, hkey, hv⟩ : ∃ f ∈ fields, f.1 = .str m.1 ∧ toLuaVal order depth m.2 = .ok f.2 := by
    clear h hkeys hfst hmet hnodup
    induction heach with
    | nil => exact absurd hm List.not_mem_nil
    | cons hfield _ ih =>
        rcases List.mem_cons.mp hm with rfl | hm
        · exact ⟨_, List.mem_cons_self, hfield⟩
        · obtain ⟨f, hf, hrest⟩ := ih hm
          exact ⟨f, List.mem_cons_of_mem _ hf, hrest⟩
  refine ⟨f.2, hv, fieldAt_of_mem hnodup ((hperm fields).mem_iff.mpr ?_)⟩
  rw [← hkey]
  exact hf

theorem numberIn_floated (n : JsonNumber) :
    ∃ m, floated (.num n) = .num m ∧ numberIn m = numberIn n := by
  cases n with
  | float q => exact ⟨_, rfl, rfl⟩
  | negZero => exact ⟨_, rfl, rfl⟩
  | int n =>
      by_cases h : -9223372036854775808 ≤ n ∧ n ≤ 9223372036854775807
      · have hin : numberIn (.int n) = .int n := if_pos h
        exact ⟨.int n, by rw [floated, hin], rfl⟩
      · have hin : numberIn (.int n) = .float (double n) := if_neg h
        exact ⟨.float (double n), by rw [floated, hin], hin.symm⟩

/-- A value reads in a key as the JSON value it is. -/
theorem valueText_eq (hspells : Spells shown encode text)
    (hperm : ∀ fields, (order fields).Perm fields) {j : Json} {v : LuaVal} (hj : WellFormed j)
    (hkeys : OneKeyed (floated j)) (hv : toLuaVal order depth j = .ok v) :
    valueText shown encode v = .ok (jsonText shown text (floated j)) := by
  have hback := toJson_of_toLuaVal hperm hj hv (Nat.zero_le depth)
  rw [toLuaVal.eq_def] at hv
  split at hv
  · cases hv
  · cases j with
    | num n =>
        cases hv
        obtain ⟨m, hm, hin⟩ := numberIn_floated n
        rw [hm, jsonText, hin]
        rfl
    | arr xs =>
        obtain ⟨items, -, rfl⟩ := map_eq_ok.mp hv
        exact hspells.encoded _ _ hback hkeys
    | obj members =>
        obtain ⟨fields, -, rfl⟩ := map_eq_ok.mp hv
        exact hspells.encoded _ _ hback hkeys
    | _ =>
        cases hv
        rfl

theorem partsOf_eq {ι : Type} {fields : List (LuaKey × LuaVal)} {key g : ι → String} {l : List ι}
    (h : ∀ i ∈ l, valueText shown encode (fieldAt fields (key i)) = .ok (g i)) :
    partsOf shown encode fields (l.map key) = .ok (l.map fun i => key i ++ "=" ++ g i) := by
  induction l with
  | nil => rfl
  | cons i l ih =>
      rw [List.map_cons, partsOf, h i List.mem_cons_self,
        ih fun k hk => h k (List.mem_cons_of_mem _ hk)]
      rfl

/-- **The key of arguments** is that of the JSON value they are. -/
theorem callKey_eq (hspells : Spells shown encode text)
    (hperm : ∀ fields, (order fields).Perm fields) {j : Json} {v : LuaVal} (name : String)
    (hj : WellFormed j)
    (hone : ∀ members, floated j = .obj members → ∀ m ∈ members, OneKeyed m.2)
    (hv : toLuaVal order depth j = .ok v) :
    callKey shown encode name v = .ok (callKeyOf shown text name (floated j)) := by
  have hscalar := @valueText_eq _ _ _ _ depth hspells hperm j v hj
  have hread := hv
  rw [toLuaVal.eq_def] at hv
  split at hv
  · cases hv
  · cases j with
    | arr xs =>
        obtain ⟨items, hitems, rfl⟩ := map_eq_ok.mp hv
        -- `map[k]` is looked up under the text of an index, where an array has nothing
        have hnil : ∀ key ∈ (indices items.length ++ []).insertionSort (· ≤ ·),
            valueText shown encode (fieldAt [] key) = .ok "nil" := fun _ _ => rfl
        have hparts := partsOf_eq hnil
        rw [List.map_id'] at hparts
        show (partsOf shown encode []
          ((indices items.length ++ []).insertionSort (· ≤ ·))).map _ = _
        rw [hparts, List.append_nil, itemsIn_length hitems, floated, callKeyOf, floatedItems_length]
        rfl
    | obj members =>
        obtain ⟨fields, hfields, rfl⟩ := map_eq_ok.mp hv
        have hsorted := hj.1
        have hmet := fieldsOf_order hperm (hsorted.imp fun h => h.ne) hfields
        -- the keys are sorted, so the order of `pairs` is gone from what follows
        have hkeys : ((order fields).map fun f => keyText shown f.1).insertionSort (· ≤ ·) =
            members.map Prod.fst := by
          have hnames := hmet.keys.map (keyText shown)
          rw [List.map_map, List.map_map] at hnames
          refine (((List.perm_insertionSort _ _).trans hnames).eq_of_pairwise ?_
            (List.pairwise_insertionSort _ _) (hsorted.imp fun h => h.le))
          exact fun a b _ _ hab hba => le_antisymm hab hba
        have htexts : ∀ m ∈ members, valueText shown encode (fieldAt (order fields) m.1) =
            .ok (jsonText shown text (floated m.2)) := by
          intro m hm
          obtain ⟨v, hv, hat⟩ := hmet.found m hm
          rw [hat]
          refine valueText_eq hspells hperm (wellFormed_of_mem hj.2 hm)
            (hone _ rfl (m.1, floated m.2) ?_) hv
          rw [floatedMembers_eq]
          exact List.mem_map_of_mem hm
        have hparts := partsOf_eq htexts
        show (partsOf shown encode (order fields)
          (((order fields).map fun f => keyText shown f.1).insertionSort (· ≤ ·))).map _ = _
        rw [hkeys, hparts, floated, callKeyOf, floatedMembers_eq, List.map_map]
        rfl
    | num n =>
        cases hv
        obtain ⟨m, hm, hin⟩ := numberIn_floated n
        rw [hm] at hscalar ⊢
        exact congrArg (Except.map (name ++ "\x00" ++ ·)) (hscalar trivial hread)
    | _ =>
        cases hv
        exact congrArg (Except.map (name ++ "\x00" ++ ·)) (hscalar trivial hread)

/-! ### What is read -/

theorem isFalse_eq {j : Json} {v : LuaVal} (hv : toLuaVal order depth j = .ok v) :
    isFalse v = isNo (some j) := by
  rw [toLuaVal.eq_def] at hv
  split at hv
  · cases hv
  · cases j with
    | bool b =>
        cases hv
        rfl
    | arr xs =>
        obtain ⟨items, -, rfl⟩ := map_eq_ok.mp hv
        rfl
    | obj members =>
        obtain ⟨fields, -, rfl⟩ := map_eq_ok.mp hv
        rfl
    | _ =>
        cases hv
        rfl

/-- What a stored result says of itself, it says when it is read. -/
theorem resultSucceeded_eq (hperm : ∀ fields, (order fields).Perm fields) {d : ℕ} {result : LuaVal}
    {j : Json} {v : LuaVal} (hstored : toJson d result = .ok j)
    (hv : toLuaVal order depth j = .ok v) (ok : Bool) :
    resultSucceeded ok v = succeeded ok j := by
  refine congrArg (ok && !·) ?_
  rw [toLuaVal.eq_def] at hv
  split at hv
  · cases hv
  · cases j with
    | obj members =>
        have hnodup : (members.map Prod.fst).Nodup :=
          (keys_of_toJson hstored).imp fun h => h.ne
        obtain ⟨fields, hfields, rfl⟩ := map_eq_ok.mp hv
        have hmet := fieldsOf_order hperm hnodup hfields
        show isFalse (fieldAt (order fields) "ok") = isNo (Obj.get? members "ok")
        by_cases hok : "ok" ∈ members.map Prod.fst
        · obtain ⟨m, hm, hkey⟩ := List.mem_map.mp hok
          obtain ⟨v, hv, hat⟩ := hmet.found m hm
          rw [← hkey, hat, Obj.get?_of_mem hnodup hm]
          exact isFalse_eq hv
        · have hat : fieldAt (order fields) "ok" = .nil := by
            refine fieldAt_of_not_mem fun hmem => hok ?_
            obtain ⟨m, hm, hkey⟩ := List.mem_map.mp (hmet.keys.mem_iff.mp hmem)
            exact List.mem_map.mpr ⟨m, hm, LuaKey.str.inj hkey⟩
          rw [hat, Obj.get?_of_not_mem hok]
          rfl
    | arr xs =>
        obtain ⟨items, -, rfl⟩ := map_eq_ok.mp hv
        rfl
    | _ =>
        cases hv
        rfl

theorem Separable.oneKeyed {name : String} {args : Json} (h : Separable name args) :
    ∀ members, args = .obj members → ∀ m ∈ members, OneKeyed m.2 := by
  obtain ⟨-, members, rfl, hmembers⟩ := h
  rintro members' ⟨⟩ m hm
  exact (hmembers m hm).2.2.2

/-- The arguments of a call, as it was handed them and as they were stored. -/
theorem callKey_handed {args : LuaVal} {j : Json} (hargs : IsDecoded args)
    (hj : toJson 2 args = .ok j) :
    WellFormed j ∧ floated j = j ∧ ∀ name, Spells shown encode text → Separable name j →
      callKey shown encode name args = .ok (callKeyOf shown text name j) := by
  obtain ⟨order, depth, j₀, hperm, hwell, hdecoded⟩ := hargs
  have hback := toJson_of_toLuaVal hperm hwell hdecoded (Nat.zero_le depth)
  have hzero := toJson_shallower args (Nat.zero_le 2) hj
  obtain rfl : floated j₀ = j := Except.ok.inj (hback.symm.trans hzero)
  exact ⟨wellFormed_floated j₀ hwell, floated_floated j₀, fun name hspells hsep =>
    callKey_eq hspells hperm name hwell hsep.oneKeyed hdecoded⟩

/-- They read back under the same key. -/
theorem callKey_read (hspells : Spells shown encode text)
    (hperm : ∀ fields, (order fields).Perm fields) {j : Json} {v : LuaVal} {name : String}
    (hsep : Separable name j) (hj : ∃ args, IsDecoded args ∧ toJson 2 args = .ok j)
    (hv : toLuaVal order depth j = .ok v) :
    callKey shown encode name v = .ok (callKeyOf shown text name j) := by
  obtain ⟨args, hargs, hstored⟩ := hj
  obtain ⟨hwell, hfloated, -⟩ := @callKey_handed shown encode text _ _ hargs hstored
  have hkey := callKey_eq hspells hperm name hwell (hfloated.symm ▸ hsep.oneKeyed) hv
  rw [hkey, hfloated]

/-! ### Keys told apart -/

/-- The first character of a text tells what it is the text of. -/
def kindOfFirst (c : Char) : Kind :=
  if c = 'u' then .null
  else if c = 't' ∨ c = 'f' then .bool
  else if c = '[' ∨ c = '\x7b' then .table
  else .num

theorem kindOfFirst_numeral {c : Char} (h : c.isDigit = true ∨ c ∈ ['+', '-', '.', 'e']) :
    kindOfFirst c = .num := by
  have hne : c ≠ 'u' ∧ c ≠ 't' ∧ c ≠ 'f' ∧ c ≠ '[' ∧ c ≠ '\x7b' := by
    refine ⟨?_, ?_, ?_, ?_, ?_⟩ <;> rintro rfl <;> exact absurd h (by decide)
  simp only [kindOfFirst, hne, if_false, or_self]

theorem one_not_numeral {text : String} (h : Quoted.IsNumeral text) : '\x01' ∉ text.toList :=
  fun hmem => absurd (h.2 _ hmem) (by decide)

theorem jsonText_first (hspells : Spells shown encode text) {v : Json} (hv : kindOf v ≠ .str) :
    ∃ c, (jsonText shown text v).toList.head? = some c ∧ kindOfFirst c = kindOf v := by
  have htable : ∀ w, kindOf w = .table → ∃ c, (text w).toList.head? = some c ∧
      kindOfFirst c = .table := by
    intro w hw
    rcases (hspells.table w hw).1 with hc | hc
    · exact ⟨_, hc, rfl⟩
    · exact ⟨_, hc, rfl⟩
  cases v with
  | null => exact ⟨_, hspells.null.1, rfl⟩
  | bool b =>
      cases b with
      | false => exact ⟨'f', (by decide : "false".toList.head? = some 'f'), rfl⟩
      | true => exact ⟨'t', (by decide : "true".toList.head? = some 't'), rfl⟩
  | num n =>
      obtain ⟨hne, hchars⟩ := hspells.number n
      obtain ⟨c, rest, hc⟩ := List.exists_cons_of_ne_nil hne
      refine ⟨c, by rw [jsonText, hc]; rfl, kindOfFirst_numeral (hchars c ?_)⟩
      rw [hc]
      exact List.mem_cons_self
  | str s => exact absurd rfl hv
  | arr xs => exact htable _ rfl
  | obj members => exact htable _ rfl

theorem jsonText_whole (hspells : Spells shown encode text) {v : Json}
    (hv : ∀ s, v = .str s → '\x01' ∉ s.toList) : '\x01' ∉ (jsonText shown text v).toList := by
  cases v with
  | null => exact hspells.null.2
  | bool b =>
      cases b with
      | false => exact (by decide : '\x01' ∉ "false".toList)
      | true => exact (by decide : '\x01' ∉ "true".toList)
  | num n => exact one_not_numeral (hspells.number n)
  | str s => exact hv s rfl
  | arr xs => exact (hspells.table _ rfl).2
  | obj members => exact (hspells.table _ rfl).2

theorem Beside.symm {log : Log} {v w : Json} (h : Beside log v w) : Beside log w v := by
  obtain ⟨beat, callId, beat', callId', name, members, members', key, hmem, hmem', hv, hw⟩ := h
  exact ⟨beat', callId', beat, callId, name, members', members, key, hmem', hmem, hw, hv⟩

/-- Values of one kind are told apart by their texts. -/
theorem eq_of_text {resets : List String} {log : Log} (h : ToldApart shown text resets log)
    {v w : Json} (hvw : Beside log v w) (hkind : kindOf v = kindOf w)
    (heq : jsonText shown text v = jsonText shown text w) : v = w := by
  cases v with
  | null =>
      cases w with
      | null => rfl
      | _ => cases hkind
  | bool b =>
      cases w with
      | bool c =>
          cases b <;> cases c
          · rfl
          · exact absurd heq (by decide : "false" ≠ "true")
          · exact absurd heq (by decide : "true" ≠ "false")
          · rfl
      | _ => cases hkind
  | num m =>
      cases w with
      | num n => exact congrArg Json.num (h.numbers m n hvw heq)
      | _ => cases hkind
  | str s =>
      cases w with
      | str t => exact congrArg Json.str heq
      | _ => cases hkind
  | arr xs =>
      cases w with
      | arr ys => exact h.tables _ _ hvw rfl rfl heq
      | obj members => exact h.tables _ _ hvw rfl rfl heq
      | _ => cases hkind
  | obj members =>
      cases w with
      | arr ys => exact h.tables _ _ hvw rfl rfl heq
      | obj members' => exact h.tables _ _ hvw rfl rfl heq
      | _ => cases hkind

/-- **Values are told apart by their texts**, under one key of two calls. -/
theorem jsonText_inj (hspells : Spells shown encode text) {resets : List String} {log : Log}
    (h : ToldApart shown text resets log) {v w : Json} (hvw : Beside log v w)
    (heq : jsonText shown text v = jsonText shown text w) : v = w := by
  refine eq_of_text h hvw ?_ heq
  by_cases hv : kindOf v = .str
  · obtain ⟨s, rfl⟩ : ∃ s, v = .str s := by
      cases v with
      | str s => exact ⟨s, rfl⟩
      | _ => cases hv
    by_contra hw
    exact h.strings s w hvw (fun heq => hw heq.symm) heq.symm
  · by_cases hw : kindOf w = .str
    · obtain ⟨s, rfl⟩ : ∃ s, w = .str s := by
        cases w with
        | str s => exact ⟨s, rfl⟩
        | _ => cases hw
      exact absurd heq (h.strings s v hvw.symm hv)
    · obtain ⟨c, hc, hkind⟩ := jsonText_first hspells hv
      obtain ⟨c', hc', hkind'⟩ := jsonText_first hspells hw
      rw [heq, hc', Option.some.injEq] at hc
      rw [← hkind, ← hc, hkind']

/-- Lists that are mapped to one, by what tells their members apart. -/
theorem map_inj_of_mem {α β : Type} {f : α → β} {l l' : List α}
    (h : ∀ a ∈ l, ∀ b ∈ l', f a = f b → a = b) (heq : l.map f = l'.map f) : l = l' := by
  induction l generalizing l' with
  | nil => exact (List.map_eq_nil_iff.mp heq.symm).symm
  | cons a l ih =>
      cases l' with
      | nil => cases heq
      | cons b l' =>
          obtain ⟨hab, hrest⟩ := List.cons.inj heq
          rw [h a List.mem_cons_self b List.mem_cons_self hab, ih (fun a ha b hb =>
            h a (List.mem_cons_of_mem _ ha) b (List.mem_cons_of_mem _ hb)) hrest]

/-- Members that are equal are one, where no number is written in two ways. -/
theorem members_eq {members members' : List (String × Json)}
    (h : ∀ m ∈ members, ∀ m' ∈ members', m.1 = m'.1 → Json.Spelled m.2.numbers m'.2.numbers)
    (hsame : Json.SameMembers members members') : members = members' := by
  induction members generalizing members' with
  | nil =>
      cases members' with
      | nil => rfl
      | cons m' members' => exact absurd hsame id
  | cons m members ih =>
      obtain ⟨key, x⟩ := m
      cases members' with
      | nil => exact absurd hsame id
      | cons m' members' =>
          obtain ⟨key', y⟩ := m'
          obtain ⟨rfl, hxy, hrest⟩ := hsame
          have hx : x = y :=
            Json.eq_of_same (h _ List.mem_cons_self _ List.mem_cons_self rfl) hxy
          rw [hx, ih (fun m hm m' hm' => h m (List.mem_cons_of_mem _ hm) m'
            (List.mem_cons_of_mem _ hm')) hrest]

/-- One part of a key, taken apart at its first `=`. -/
theorem part_inj {key key' value value' : String} (hkey : '=' ∉ key.toList)
    (hkey' : '=' ∉ key'.toList) (h : key ++ "=" ++ value = key' ++ "=" ++ value') :
    key = key' ∧ value = value' := by
  have hlist := congrArg String.toList h
  rw [String.append_assoc, String.append_assoc, String.toList_append, String.toList_append,
    String.toList_append, String.toList_append] at hlist
  obtain ⟨hfirst, hrest⟩ := Split.append_inj_first hkey hkey' hlist
  exact ⟨String.toList_injective hfirst, String.toList_injective hrest⟩

/-- **Keys tell calls apart**: two recorded calls have one exactly if they are of
one tool with equal arguments. -/
theorem callKeyOf_iff (hspells : Spells shown encode text) {resets : List String} {log : Log}
    (h : ToldApart shown text resets log) {beat beat' : Option String}
    {callId callId' name name' : String} {args args' : Json}
    (hmem : .toolCall beat callId name args ∈ log)
    (hmem' : .toolCall beat' callId' name' args' ∈ log) :
    callKeyOf shown text name args = callKeyOf shown text name' args' ↔
      name = name' ∧ Json.Same args args' := by
  obtain ⟨hname, members, rfl, hplain⟩ := h.separable _ _ _ _ hmem
  obtain ⟨hname', members', rfl, hplain'⟩ := h.separable _ _ _ _ hmem'
  constructor
  · intro heq
    have hlist := congrArg String.toList heq
    rw [callKeyOf, callKeyOf, String.append_assoc, String.append_assoc, String.toList_append,
      String.toList_append, String.toList_append, String.toList_append] at hlist
    obtain ⟨hfirst, hrest⟩ := Split.append_inj_first hname hname' hlist
    obtain rfl : name = name' := String.toList_injective hfirst
    -- no part holds the separator, so the joined text gives the parts back
    have hwhole : ∀ ms : List (String × Json), (∀ m ∈ ms, '=' ∉ m.1.toList ∧ '\x01' ∉ m.1.toList ∧
        (∀ s, m.2 = .str s → '\x01' ∉ s.toList) ∧ OneKeyed m.2) →
        ∀ part ∈ ms.map fun m => m.1 ++ "=" ++ jsonText shown text m.2,
          part ≠ "" ∧ '\x01' ∉ part.toList := by
      intro ms hms part hpart
      obtain ⟨m, hm, rfl⟩ := List.mem_map.mp hpart
      obtain ⟨-, hkey, hstr, -⟩ := hms m hm
      constructor
      · intro hempty
        have hlength := congrArg String.length hempty
        rw [String.length_append, String.length_append] at hlength
        exact absurd hlength (Nat.ne_of_gt (Nat.add_pos_left (Nat.succ_pos _) _))
      · rw [String.toList_append, String.toList_append]
        simp only [List.mem_append, not_or]
        exact ⟨⟨hkey, by decide⟩, jsonText_whole hspells hstr⟩
    have hparts := Split.intercalate_inj (hwhole members hplain) (hwhole members' hplain')
      (String.toList_injective hrest)
    have hmembers : members = members' := by
      refine map_inj_of_mem (fun m hm m' hm' hpart => ?_) hparts
      obtain ⟨key, v⟩ := m
      obtain ⟨key', w⟩ := m'
      obtain ⟨rfl, htext⟩ := part_inj (hplain _ hm).1 (hplain' _ hm').1 hpart
      have hvw : Beside log v w := ⟨_, _, _, _, _, _, _, _, hmem, hmem', hm, hm'⟩
      rw [jsonText_inj hspells h hvw htext]
    rw [hmembers]
    exact ⟨rfl, Json.Same.refl _⟩
  · rintro ⟨rfl, hsame⟩
    have hmembers : members = members' := by
      refine members_eq (fun m hm m' hm' hkey => h.spelled _ _ ?_) hsame
      exact ⟨_, _, _, _, _, _, _, m.1, hmem, hmem', hm, hkey ▸ hm'⟩
    rw [hmembers]

/-! ### What is counted -/

/-- A call of this key. -/
def hasKey (shown : LuaVal → String) (text : Json → String) (key : String) :
    LogEvent Json → Bool
  | .toolCall _ _ name args => callKeyOf shown text name args = key
  | _ => false

theorem countKey_eq (hspells : Spells shown encode text)
    (hperm : ∀ fields, (order fields).Perm fields) {log : Log} {evs : List (LogEvent LuaVal)}
    (hwritten : ∀ ev ∈ log, Written ev)
    (hsep : ∀ beat callId name args, .toolCall beat callId name args ∈ log → Separable name args)
    (heach : List.Forall₂ (Reads order) log evs) (key : String) :
    countKey shown encode key evs = .ok (log.countP (hasKey shown text key)) := by
  induction heach with
  | nil => rfl
  | @cons ev row log evs hrow _ ih =>
      have hrest := ih (fun ev' hev' => hwritten ev' (List.mem_cons_of_mem _ hev'))
        fun beat callId name args hmem => hsep beat callId name args (List.mem_cons_of_mem _ hmem)
      cases ev with
      | toolCall beat callId name args =>
          obtain ⟨v, hv, rfl⟩ := map_eq_ok.mp hrow
          have hkey : callKey shown encode name v = .ok (callKeyOf shown text name args) :=
            callKey_read hspells hperm (hsep _ _ _ _ List.mem_cons_self)
              (hwritten _ List.mem_cons_self) hv
          rw [countKey, hkey, hrest, List.countP_cons]
          simp only [hasKey, decide_eq_true_eq]
          show Except.ok _ = Except.ok _
          split <;> rfl
      | toolResult beat callId ok result =>
          obtain ⟨v, hv, rfl⟩ := map_eq_ok.mp hrow
          rw [countKey, hrest, List.countP_cons_of_neg (by simp [hasKey])]
          exact nofun
      | other kind beat data =>
          obtain ⟨v, hv, rfl⟩ := map_eq_ok.mp hrow
          rw [countKey, hrest, List.countP_cons_of_neg (by simp [hasKey])]
          exact nofun

variable {resets : List String}

theorem step_eq (hperm : ∀ fields, (order fields).Perm fields) (s : Scan) {ev : LogEvent Json}
    {row : LogEvent LuaVal} (hwritten : Written ev) (hrow : Reads order ev row) :
    s.step resets resultSucceeded row = s.step resets succeeded ev := by
  cases ev with
  | toolCall beat callId name args =>
      obtain ⟨v, -, rfl⟩ := map_eq_ok.mp hrow
      rfl
  | toolResult beat callId ok result =>
      obtain ⟨v, hv, rfl⟩ := map_eq_ok.mp hrow
      obtain ⟨answered, hstored⟩ := hwritten
      rw [Scan.step, Scan.step, resultSucceeded_eq hperm hstored hv ok]
  | other kind beat data =>
      obtain ⟨v, -, rfl⟩ := map_eq_ok.mp hrow
      rfl

theorem scan_eq (hperm : ∀ fields, (order fields).Perm fields) {log : Log}
    {evs : List (LogEvent LuaVal)} (hwritten : ∀ ev ∈ log, Written ev)
    (heach : List.Forall₂ (Reads order) log evs) (s : Scan) :
    evs.foldl (Scan.step resets resultSucceeded) s = log.foldl (Scan.step resets succeeded) s := by
  induction heach generalizing s with
  | nil => rfl
  | cons hrow _ ih =>
      rw [List.foldl_cons, List.foldl_cons, step_eq hperm s (hwritten _ List.mem_cons_self) hrow]
      exact ih (fun ev hev => hwritten ev (List.mem_cons_of_mem _ hev)) _

theorem ResetsTold.init {log : Log} {ev : LogEvent Json} (h : ResetsTold resets (log ++ [ev])) :
    ResetsTold resets log := by
  intro before beat callId ok result after heq
  refine h before beat callId ok result (after ++ [ev]) ?_
  rw [heq, List.append_assoc]
  rfl

theorem sinceReset_concat (resets : List String) (log : Log) (ev : LogEvent Json) :
    sinceReset resets (log ++ [ev]) =
      if isReset resets log ev then [] else sinceReset resets log ++ [ev] := by
  have hbefore : ∀ (l : Log) (s : Log × Log),
      (l.foldl (fun (s : Log × Log) ev =>
        (s.1 ++ [ev], if isReset resets s.1 ev then [] else s.2 ++ [ev])) s).1 = s.1 ++ l := by
    intro l
    induction l with
    | nil => exact fun s => (List.append_nil _).symm
    | cons ev l ih =>
        intro s
        rw [List.foldl_cons, ih, List.append_assoc]
        rfl
  rw [sinceReset, List.foldl_concat, hbefore]
  rfl

/-- A tool found under an id is that of a call there. -/
theorem ownTool_mem {before : Log} {callId name : String} (h : ownTool before callId = some name) :
    ∃ beat args, .toolCall beat callId name args ∈ before := by
  induction before using List.reverseRecOn with
  | nil => cases h
  | append_singleton before ev ih =>
      rw [ownTool, List.foldl_concat] at h
      cases ev with
      | toolCall beat other tool args =>
          simp only at h
          split at h
          · rename_i heq
            cases h
            exact ⟨beat, args, heq ▸ List.mem_append_right _ List.mem_cons_self⟩
          · obtain ⟨beat', args', hmem⟩ := ih h
            exact ⟨beat', args', List.mem_append_left _ hmem⟩
      | toolResult beat other ok result =>
          obtain ⟨beat', args', hmem⟩ := ih h
          exact ⟨beat', args', List.mem_append_left _ hmem⟩
      | other kind beat data =>
          obtain ⟨beat', args', hmem⟩ := ih h
          exact ⟨beat', args', List.mem_append_left _ hmem⟩

/-- A result under the id of a reset tool's call is one's of its own, where no other
tool is called under that id later. -/
theorem ToldApart.resetsTold {log : Log} (h : ToldApart shown text resets log) :
    ResetsTold resets log := by
  rintro before beat₀ callId ok result after rfl hok ⟨beat', name, args, hcall, hname⟩
  have hown : ∀ pre post : Log, pre ++ post = before →
      (∃ beat name args, .toolCall beat callId name args ∈ pre ∧ name ∈ resets) →
      ∃ name, ownTool pre callId = some name ∧ name ∈ resets := by
    intro pre
    induction pre using List.reverseRecOn with
    | nil =>
        rintro _ _ ⟨_, _, _, hmem, _⟩
        exact absurd hmem List.not_mem_nil
    | append_singleton pre ev ih =>
        rintro post hpost ⟨beat, name, args, hmem, hin⟩
        have hback : (∃ beat name args, .toolCall beat callId name args ∈ pre ∧ name ∈ resets) →
            ∃ name, ownTool pre callId = some name ∧ name ∈ resets :=
          ih (ev :: post) (by rw [← hpost, List.append_assoc]; rfl)
        rw [ownTool, List.foldl_concat, ← ownTool]
        rcases List.mem_append.mp hmem with hpre | hlast
        · obtain ⟨own, hown, hreset⟩ := hback ⟨beat, name, args, hpre, hin⟩
          cases ev with
          | toolCall beat₁ other tool args₁ =>
              simp only
              split
              · rename_i hid
                subst hid
                -- the id is called again: by a reset tool, for no other tool takes an id of one
                refine ⟨tool, rfl, ?_⟩
                by_contra htool
                refine h.ids pre beat₁ other tool args₁
                  (post ++ .toolResult beat₀ other ok result :: after) ?_ htool beat name args hpre hin
                rw [← hpost]
                simp
              · exact ⟨own, hown, hreset⟩
          | toolResult beat₁ other ok₁ result₁ => exact ⟨own, hown, hreset⟩
          | other kind beat₁ data => exact ⟨own, hown, hreset⟩
        -- the call is the last one, and no other has its id yet
        · obtain rfl := List.mem_singleton.mp hlast
          exact ⟨name, if_pos rfl, hin⟩
  obtain ⟨own, hown, hreset⟩ := hown before [] (List.append_nil _) ⟨beat', name, args, hcall, hname⟩
  rw [isReset, hok, hown]
  simpa using hreset

/-- The walk leaves out just what is before the newest reset. -/
theorem scan_spec {log : Log} (h : ResetsTold resets log) :
    let s := log.foldl (Scan.step resets succeeded) Scan.start
    s.index = log.length ∧ s.since ≤ log.length ∧ log.drop s.since = sinceReset resets log ∧
      ∀ callId, callId ∈ s.resetCalls ↔
        ∃ beat name args, .toolCall beat callId name args ∈ log ∧ name ∈ resets := by
  induction log using List.reverseRecOn with
  | nil => exact ⟨rfl, le_rfl, rfl, fun callId => by simp [Scan.start]⟩
  | append_singleton log ev ih =>
      obtain ⟨hindex, hsince, hdrop, hcalls⟩ := ih h.init
      simp only [List.foldl_concat]
      generalize log.foldl (Scan.step resets succeeded) Scan.start = s
        at hindex hsince hdrop hcalls ⊢
      have hlength : (log ++ [ev]).length = log.length + 1 := List.length_append
      have hkept : (log ++ [ev]).drop s.since = sinceReset resets log ++ [ev] := by
        rw [List.drop_append_of_le_length hsince, hdrop]
      cases ev with
      | toolCall beat callId name args =>
          refine ⟨by rw [hlength, ← hindex]; rfl, hlength ▸ Nat.le_succ_of_le hsince, ?_, ?_⟩
          · rw [sinceReset_concat]
            exact hkept
          · intro id
            simp only [Scan.step, List.mem_append, List.mem_singleton, LogEvent.toolCall.injEq]
            by_cases hname : name ∈ resets
            · rw [if_pos hname, List.mem_cons, hcalls]
              constructor
              · rintro (rfl | ⟨beat', name', args', hmem, hin⟩)
                · exact ⟨beat, name, args, .inr ⟨rfl, rfl, rfl, rfl⟩, hname⟩
                · exact ⟨beat', name', args', .inl hmem, hin⟩
              · rintro ⟨beat', name', args', hmem | ⟨-, rfl, -, -⟩, hin⟩
                · exact .inr ⟨beat', name', args', hmem, hin⟩
                · exact .inl rfl
            · rw [if_neg hname, hcalls]
              constructor
              · rintro ⟨beat', name', args', hmem, hin⟩
                exact ⟨beat', name', args', .inl hmem, hin⟩
              · rintro ⟨beat', name', args', hmem | ⟨-, -, rfl, -⟩, hin⟩
                · exact ⟨beat', name', args', hmem, hin⟩
                · exact absurd hin hname
      | toolResult beat callId ok result =>
          -- ids of reset calls are never taken out of the table, so `h` is what makes them tell
          have hreset : (callId ∈ s.resetCalls ∧ succeeded ok result = true) ↔
              isReset resets log (.toolResult beat callId ok result) = true := by
            constructor
            · rintro ⟨hmem, hok⟩
              exact h log beat callId ok result [] rfl hok ((hcalls callId).mp hmem)
            · intro hreset
              obtain ⟨hok, hown⟩ := Bool.and_eq_true_iff.mp hreset
              obtain ⟨name, hname, hin⟩ := (Option.any_eq_true _ _).mp hown
              obtain ⟨beat', args', hmem⟩ := ownTool_mem hname
              exact ⟨(hcalls callId).mpr ⟨beat', name, args', hmem, of_decide_eq_true hin⟩, hok⟩
          have hids : ∀ id, id ∈ s.resetCalls ↔ ∃ beat' name args,
              LogEvent.toolCall beat' id name args ∈ log ++ [.toolResult beat callId ok result] ∧
                name ∈ resets := by
            intro id
            rw [hcalls]
            simp
          by_cases hr : isReset resets log (.toolResult beat callId ok result) = true
          · refine ⟨by rw [hlength, ← hindex]; rfl, ?_, ?_, hids⟩
            · simp only [Scan.step, if_pos (hreset.mpr hr)]
              rw [hlength, hindex]
            · simp only [Scan.step, if_pos (hreset.mpr hr)]
              -- nothing is left of a log that ends with a reset
              rw [sinceReset_concat, if_pos hr, hindex, ← hlength, List.drop_length]
          · refine ⟨by rw [hlength, ← hindex]; rfl, ?_, ?_, hids⟩
            · simp only [Scan.step, if_neg (mt hreset.mp hr)]
              exact hlength ▸ Nat.le_succ_of_le hsince
            · simp only [Scan.step, if_neg (mt hreset.mp hr)]
              rw [sinceReset_concat, if_neg hr]
              exact hkept
      | other kind beat data =>
          refine ⟨by rw [hlength, ← hindex]; rfl, hlength ▸ Nat.le_succ_of_le hsince, ?_, ?_⟩
          · rw [sinceReset_concat]
            exact hkept
          · intro id
            have hsame : (s.step resets succeeded (.other kind beat data)).resetCalls =
                s.resetCalls := rfl
            rw [hsame, hcalls]
            simp

/-- The calls of one key, where keys tell calls apart. -/
theorem countP_key (hspells : Spells shown encode text) {log : Log}
    (h : ToldApart shown text resets log) {beat : Option String} {callId name : String}
    {args : Json} (hmem : .toolCall beat callId name args ∈ log)
    (n : ℕ) (hn : log.drop n = sinceReset resets log) :
    (log.drop n).countP (hasKey shown text (callKeyOf shown text name args)) =
      repeats resets log name args := by
  classical
  rw [repeats, ← hn]
  refine List.countP_congr fun ev hev => ?_
  have hin := List.mem_of_mem_drop hev
  rw [decide_eq_true_iff]
  cases ev with
  | toolCall beat' callId' name' args' =>
      exact decide_eq_true_iff.trans (callKeyOf_iff hspells h hin hmem)
  | toolResult beat' callId' ok result => exact iff_of_false Bool.false_ne_true id
  | other kind beat' data => exact iff_of_false Bool.false_ne_true id

/-- **What is counted**: of a log that is told apart, the calls of this tool with
these arguments since the newest reset. -/
theorem count_eq (hspells : Spells shown encode text)
    (hperm : ∀ fields, (order fields).Perm fields) (cap : RepeatCap) {log : Log}
    (hwritten : ∀ ev ∈ log, Written ev)
    (h : ToldApart shown text cap.resets log) {beat : Option String} {callId name : String}
    {args : Json} (hmem : .toolCall beat callId name args ∈ log) :
    cap.count shown encode order log (callKeyOf shown text name args) =
      .ok (repeats cap.resets log name args) := by
  obtain ⟨evs, hevs, heach⟩ := @wholeRows_eq order _ "policy.repeat_cap" h.readable.1 h.readable.2
  obtain ⟨-, -, hdrop, -⟩ := scan_spec h.resetsTold
  rw [RepeatCap.count, hevs]
  show countKey shown encode _ (evs.drop (evs.foldl (Scan.step cap.resets resultSucceeded)
    Scan.start).since) = _
  rw [scan_eq hperm hwritten heach, countKey_eq hspells hperm
    (fun ev hev => hwritten ev (List.mem_of_mem_drop hev))
    (fun beat callId name args hin => h.separable _ _ _ _ (List.mem_of_mem_drop hin))
    (List.forall₂_drop _ heach), countP_key hspells h hmem _ hdrop]

end

/-! ### Runs -/

section

variable {W : Type} {shown : LuaVal → String} {encode : LuaVal → Except LuaVal String}
  {text : Json → String} {order : List (LuaKey × LuaVal) → List (LuaKey × LuaVal)}
  {tools : String → Option (Handler W)}

/-- One handler under the cap, at the log it found. -/
theorem countsExactly (hspells : Spells shown encode text)
    (hperm : ∀ fields, (order fields).Perm fields) (cap : RepeatCap) {a : HandlerRun W}
    (ha : a.Answers (cap.wrap shown encode order tools))
    (h : ToldApart shown text cap.resets a.log) :
    CountsExactly shown encode order cap tools a := by
  obtain ⟨before, beat, args, hlog, hargs⟩ := ha.called
  have hmem : .toolCall (some beat) a.use.id a.use.name args ∈ a.log :=
    hlog ▸ List.mem_append_right _ List.mem_cons_self
  have hsep := h.separable _ _ _ _ hmem
  have hkey : callKey shown encode a.use.name a.use.args =
      .ok (callKeyOf shown text a.use.name args) :=
    (callKey_handed a.use.decoded hargs).2.2 a.use.name hspells hsep
  constructor
  case answer =>
    obtain ⟨capped, hcapped, hran⟩ := ha.ran
    obtain ⟨handler, hhandler, rfl⟩ := Option.map_eq_some_iff.mp hcapped
    refine ⟨handler, args, hhandler, hargs, ?_⟩
    rw [← hran]
    have hcount := count_eq hspells hperm cap ha.written h hmem
    have hseen : callKey shown encode a.use.name a.use.args >>=
        RepeatCap.count shown encode order cap a.log =
        .ok (repeats cap.resets a.log a.use.name args) := bind_eq_ok.mpr ⟨_, hkey, hcount⟩
    simp only [RepeatCap.handler, hseen]
    rcases Nat.lt_or_ge cap.max (repeats cap.resets a.log a.use.name args) with hlt | hle
    · rw [if_neg (Nat.not_le.mpr hlt), if_pos hlt]
    · rw [if_pos hle, if_neg (Nat.not_lt.mpr hle)]
  case same =>
    intro args' beat' callId' name' stored read hargs' hmem' hread
    obtain rfl : args = args' := Except.ok.inj (hargs.symm.trans hargs')
    have hread' : callKey shown encode name' read = .ok (callKeyOf shown text name' stored) :=
      callKey_read hspells hperm (h.separable _ _ _ _ hmem') (ha.written _ hmem') hread
    rw [hkey, hread', Except.ok.injEq]
    exact callKeyOf_iff hspells h hmem hmem'

/-- **A call is refused from its repetition past the maximum on**, at every
handler any acts of a session's handle ever ran over a log that is told apart.  A key
is text, so what is asked of the log is asked of what was called and of how that is
written (`Spells`), and not of the keys. -/
theorem repeats_counted (hspells : Spells shown encode text)
    (hperm : ∀ fields, (order fields).Perm fields) (broken : Log → Option LuaVal)
    (tostring : LuaVal → String) (tools : String → Option (Handler W)) (cap : RepeatCap)
    (acts : List HandleAct) (world : W) :
    ∀ a ∈ ((⟨[], world, []⟩ : Loop W).run broken tostring (cap.wrap shown encode order tools)
      acts).handled, ToldApart shown text cap.resets a.log →
    CountsExactly shown encode order cap tools a := by
  intro a ha h
  exact countsExactly hspells hperm cap ((Loop.sound_empty world).run acts |>.handled a ha) h

end

/-! ### Single runs -/

/-- A tool that counts how often it ran. -/
def counting : String → Option (Handler ℕ) := fun _ =>
  some fun _ _ n => (.ok (.table false [] [(.str "ok", .bool true)]), n + 1)

/-- A call of a tool with one argument. -/
def useOf (callId name key : String) (x : Json) (v : LuaVal) (hx : WellFormed x)
    (hv : toLuaVal id 1 x = .ok v) : ToolUse where
  id := callId
  name := name
  args := .table false [] [(.str key, v)]
  decoded := by
    refine ⟨id, 0, .obj [(key, x)], fun _ => List.Perm.refl _,
      ⟨List.pairwise_singleton _ _, hx, trivial⟩, ?_⟩
    simp only [toLuaVal, membersIn, hv]
    rfl

/-- One call a beat. -/
def oneABeat (uses : List ToolUse) : List HandleAct :=
  uses.zipIdx.map fun u => .tools (toString u.2) [(u.1, .run)]

def numberUse (callId name : String) : ToolUse :=
  useOf callId name "line" (.num (.int 1)) (.num (.int 1))
    (by decide : (-9223372036854775808 : ℤ) ≤ 1 ∧ (1 : ℤ) < 18446744073709551616) rfl

def stringUse (callId name : String) : ToolUse :=
  useOf callId name "line" (.str "1") (.str "1") trivial rfl

/-- The place of line 1, as a table. -/
def place : Json := .obj [("line", .num (.int 1))]

def placeUse (callId name : String) : ToolUse :=
  useOf callId name "at" place (.table false [] [(.str "line", .num (.int 1))])
    ⟨List.pairwise_singleton _ _, ⟨by decide, by decide⟩, trivial⟩ rfl

def once (resets : List String) (h : ∀ name ∈ resets, name ≠ "") : RepeatCap where
  max := 1
  resets := resets
  positive := le_rfl
  named := h

/-- What `tostring` writes of a null, and of floats. -/
def shownHere : LuaVal → String
  | .null => "userdata: (nil)"
  | .num .negZero => "-0.0"
  | _ => "0.0"

/-- What is encoded here: the place of line 1, and other tables as if empty. -/
def textHere : Json → String
  | .obj [("line", .num (.int 1))] => "\x7b\"line\":1\x7d"
  | .obj _ => "\x7b\x7d"
  | _ => "[]"

def encodeHere (v : LuaVal) : Except LuaVal String :=
  match toJson 0 v with
  | .ok j => .ok (textHere j)
  | .error e => .error (.str e)

theorem spells_here : Spells shownHere encodeHere textHere where
  null := by decide
  number n := by
    have hfloat : Quoted.IsNumeral "0.0" ∧ Quoted.IsNumeral "-0.0" :=
      ⟨Quoted.isNumeral_of_all (by decide) (by decide),
        Quoted.isNumeral_of_all (by decide) (by decide)⟩
    cases n with
    | int n =>
        by_cases h : -9223372036854775808 ≤ n ∧ n ≤ 9223372036854775807
        · have hin : numberIn (.int n) = .int n := if_pos h
          rw [hin]
          exact Quoted.isNumeral_int n
        · have hin : numberIn (.int n) = .float (double n) := if_neg h
          rw [hin]
          exact hfloat.1
    | float q => exact hfloat.1
    | negZero => exact hfloat.2
  encoded v j h _ := by rw [encodeHere, h]
  table j _ := by
    rw [textHere.eq_def]
    split <;> decide

/-- The handlers a run of one call a beat ran. -/
def handledOf (cap : RepeatCap) (uses : List ToolUse) : List (HandlerRun ℕ) :=
  ((⟨[], 0, []⟩ : Loop ℕ).run (fun _ => none) (textOf shownHere)
    (cap.wrap shownHere encodeHere id counting) (oneABeat uses)).handled

def twice : List ToolUse := [placeUse "a" "read", placeUse "b" "read"]

theorem twice_refused : ∃ a, (handledOf (once [] nofun) twice)[1]? = some a ∧ a.after = 1 ∧
    CountsExactly shownHere encodeHere id (once [] nofun) counting a := by
  obtain ⟨a, ha, hafter, hlog⟩ : ∃ a, (handledOf (once [] nofun) twice)[1]? = some a ∧
      a.after = 1 ∧ a.log = [.toolCall (some "0") "a" "read" (.obj [("at", place)]),
        .toolResult (some "0") "a" true (.obj [("ok", .bool true)]),
        .toolCall (some "1") "b" "read" (.obj [("at", place)])] := ⟨_, rfl, rfl, rfl⟩
  have hcall : ∀ beat callId name args, .toolCall beat callId name args ∈ a.log →
      name = "read" ∧ args = .obj [("at", place)] := by
    intro beat callId name args h
    rw [hlog] at h
    simp only [List.mem_cons, List.not_mem_nil, or_false, reduceCtorEq, false_or,
      LogEvent.toolCall.injEq] at h
    rcases h with ⟨-, -, rfl, rfl⟩ | ⟨-, -, rfl, rfl⟩ <;> exact ⟨rfl, rfl⟩
  have hplace : ∀ v w, Beside a.log v w → v = place ∧ w = place := by
    rintro v w ⟨_, _, _, _, name, members, members', key, h, h', hv, hw⟩
    obtain rfl := Json.obj.inj (hcall _ _ _ _ h).2
    obtain rfl := Json.obj.inj (hcall _ _ _ _ h').2
    exact ⟨(Prod.mk.inj (List.mem_singleton.mp hv)).2, (Prod.mk.inj (List.mem_singleton.mp hw)).2⟩
  refine ⟨a, ha, hafter, repeats_counted spells_here (fun _ => List.Perm.refl _) _ _ counting
    (once [] nofun) (oneABeat twice) 0 a (List.mem_of_getElem? ha) ?_⟩
  constructor
  case readable =>
    rw [hlog]
    refine ⟨by decide, ?_⟩
    simp only [List.forall_mem_cons, List.not_mem_nil, false_implies, implies_true, and_true]
    exact ⟨by decide, by decide, by decide⟩
  case separable =>
    intro _ _ name args h
    obtain ⟨rfl, rfl⟩ := hcall _ _ _ _ h
    refine ⟨by decide, _, rfl, fun m hm => ?_⟩
    obtain rfl := List.mem_singleton.mp hm
    refine ⟨by decide, by decide, fun s hs => ?_, by decide, trivial, trivial⟩
    cases hs
  case strings => exact fun s w h => absurd (hplace _ _ h).1 (by rintro ⟨⟩)
  case numbers => exact fun m n h => absurd (hplace _ _ h).1 (by rintro ⟨⟩)
  case tables => exact fun v w h _ _ _ => (hplace v w h).1.trans (hplace v w h).2.symm
  case spelled =>
    intro v w h
    obtain ⟨rfl, rfl⟩ := hplace v w h
    intro m hm n hn _
    rw [List.mem_singleton.mp hm, List.mem_singleton.mp hn]
  case ids => exact fun _ _ _ _ _ _ _ _ _ _ _ _ => List.not_mem_nil

/-- **A number and the text of it are one call** to the cap: the second is refused
though it was never made before. -/
theorem number_and_text_count_alike :
    ∃ a, (handledOf (once [] nofun) [numberUse "a" "read", stringUse "b" "read"])[1]? = some a ∧
      a.answer = .ok ((once [] nofun).refusal "read" 2) ∧
      ¬ CountsExactly shownHere encodeHere id (once [] nofun) counting a := by
  refine ⟨_, rfl, rfl, fun h => ?_⟩
  have hsame := (h.same (.obj [("line", .str "1")]) (some "0") "a" "read"
    (.obj [("line", .num (.int 1))]) (.table false [] [(.str "line", .num (.int 1))]) rfl
    List.mem_cons_self rfl).mp rfl
  exact hsame.2.2.1

/-- **A result resets under the id of a call of another beat**: the first beat
edits, the next two read under the id it used, and so does the third, which is not
refused. -/
theorem reset_by_another_result :
    ∃ a, (handledOf (once ["edit"] (by decide)) [numberUse "tc0000001" "edit",
      numberUse "tc0000001" "read", numberUse "tc0000001" "read"])[2]? = some a ∧
      a.answer = .ok (.table false [] [(.str "ok", .bool true)]) ∧
      ¬ CountsExactly shownHere encodeHere id (once ["edit"] (by decide)) counting a := by
  refine ⟨_, rfl, rfl, fun h => ?_⟩
  obtain ⟨handler, args, hhandler, hargs, hanswer⟩ := h.answer
  cases hargs
  have htwo : 1 < repeats ["edit"] [.toolCall (some "0") "tc0000001" "edit"
      (.obj [("line", .num (.int 1))]),
      .toolResult (some "0") "tc0000001" true (.obj [("ok", .bool true)]),
      .toolCall (some "1") "tc0000001" "read" (.obj [("line", .num (.int 1))]),
      .toolResult (some "1") "tc0000001" true (.obj [("ok", .bool true)]),
      .toolCall (some "2") "tc0000001" "read" (.obj [("line", .num (.int 1))])] "read"
      (.obj [("line", .num (.int 1))]) := by
    classical
    rw [repeats, show sinceReset ["edit"] _ = [.toolCall (some "1") "tc0000001" "read"
      (.obj [("line", .num (.int 1))]),
      .toolResult (some "1") "tc0000001" true (.obj [("ok", .bool true)]),
      .toolCall (some "2") "tc0000001" "read" (.obj [("line", .num (.int 1))])] from rfl]
    simp [List.countP_cons, IsCall, Json.Same.refl]
  have hworld := congrArg Prod.snd (hanswer.trans (if_pos htwo))
  exact absurd hworld (by decide)

end AgentBlock.Policy
