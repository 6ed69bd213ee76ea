/-
AgentBlock/Policy/Retry.lean

Asking again, and what a kernel failure is read back as.

A policy without `kinds` goes by the judgement that came with the failure, so it
rests on the reading of the raised text.

Main results:

* `asksAgain_iff` — of a kernel failure, whichever way it reached the reader as a
  text, a policy without `kinds` asks again exactly if its class is the retryable
  one;
* `failure_read_back` — the failure that is read back is the one that was raised
  exactly if it arrives as a text and its reason is of one line;
* `second_line_lost` — where it is not.
-/
import AgentBlock.Knl.ErrorTable
import AgentBlock.Policy.Room

namespace AgentBlock.Policy

open Knl (KnlError ErrorTable Method Way OneLine errorTable knlErr)

/-! ### The policy -/

def CALL_ERROR_KINDS : List String :=
  ["transport", "rate_limited", "overloaded", "server", "auth", "invalid_request", "unknown"]

/-- The kinds a caller may name: the kernel's, and a call's. -/
def RETRY_KINDS : List String := Knl.KINDS ++ CALL_ERROR_KINDS

def DEFAULT_MAX_ATTEMPTS : LuaNumber := .int 3

/-- A policy: the kinds it was given, and its attempts in total. -/
structure Retry where
  named : Option (List String)
  max : LuaNumber

section

variable (tostring : Lua → String)

/-- The kinds a caller named, from the `i`-th on. -/
def namedKinds : ℕ → List Lua → Except Lua (List String)
  | _, [] => .ok []
  | i, kind :: kinds => do
      match kind with
      | .str name =>
          check (name ∈ RETRY_KINDS) ("policy.retry: kinds[" ++ toString i ++
            "] is not a knl failure kind: " ++ name)
          let names ← namedKinds (i + 1) kinds
          .ok (name :: names)
      | kind => .error (.str ("policy.retry: kinds[" ++ toString i ++
          "] is not a knl failure kind: " ++ tostring kind))

/-- The attempts in total. -/
def maxAttempts (opts : Lua) : Except Lua LuaNumber :=
  match opts.get "max" with
  | .nil => .ok DEFAULT_MAX_ATTEMPTS
  | v =>
      match wholeAtLeast v 1 with
      | some max => .ok max
      | none => .error (.str ("policy.retry: max must be a whole number >= 1, got " ++ tostring v))

/-- The kinds a caller named, if it named any. -/
def namedIn (opts : Lua) : Except Lua (Option (List String)) :=
  match opts.get "kinds" with
  | .nil => .ok none
  | .table kinds _ => (namedKinds tostring 1 kinds).map some
  | _ => .error (.str "policy.retry: kinds must be an array of knl error kinds")

/-- `retry`. -/
def retry (opts : Lua) : Except Lua Retry := do
  let max ← maxAttempts tostring opts
  let named ← namedIn tostring opts
  .ok ⟨named, max⟩

/-- Whether a failure is one to ask again about. -/
def Retry.worth (r : Retry) (detail : Lua) : Bool :=
  match r.named with
  | some kinds =>
      match detail.get "kind" with
      | .str kind => kind ∈ kinds
      | _ => false
  | none => (detail.get "retryable").eq (.bool true)

/-- What the predicate answers: whether to ask again, and in how many seconds where
the failure names them. -/
def Retry.ask (r : Retry) (outcome attempt : Lua) : Except Lua (Bool × Option LuaNumber) :=
  match wholeAtLeast attempt 1 with
  | none => .error (.str ("policy.retry: attempt must be a whole number >= 1, got " ++
      tostring attempt))
  | some made =>
      let detail := outcome.get "detail"
      if !outcome.isTable || !(outcome.get "status").eq (.str "error") then .ok (false, none)
      else if r.max.le made then .ok (false, none)
      else if !detail.isTable then .ok (false, none)
      else if !r.worth detail then .ok (false, none)
      else match detail.get "retry_after" with
        | .num seconds => .ok (true, some seconds)
        | _ => .ok (true, none)

end

/-! ### Failures as outcomes -/

/-- A failure read back, as a table. -/
def tableOf (e : ErrorTable) : Lua :=
  .record [("kind", e.kind.elim .nil .str), ("method", e.method.elim .nil .str),
    ("retryable", .bool e.retryable), ("message", .str e.message)]

/-- `Outcome.err`. -/
def outcomeErr (stage : String) (detail : Lua) : Lua :=
  .record [("status", .str "error"), ("kind", .str stage), ("detail", detail)]

/-- What is put in its place where reading it raised. -/
def unreadTable (message : Lua) : Lua :=
  .record [("retryable", .bool false), ("message", message)]

/-- `read_error`; `message` is what `tostring` shows of what was raised. -/
def readError (raised : Option String) (message : Lua) : Lua :=
  match errorTable raised with
  | some t => tableOf t
  | none => unreadTable message

/-- A policy without `kinds` asks again about a failure exactly where it is
retryable and there are attempts left. -/
def AsksAgain (way : Way) (m : Method) (e : KnlError) : Prop :=
  ∀ (tostring : Lua → String) (opts : Lua) (r : Retry) (stage : String) (message attempt : Lua)
    (made : LuaNumber), opts.get "kinds" = .nil → retry tostring opts = .ok r →
    wholeAtLeast attempt 1 = some made →
    r.ask tostring (outcomeErr stage (readError (way.text (knlErr m e)) message)) attempt =
      .ok (!r.max.le made && e.isRetryable, none)

/-- A failure read back is the one that was raised. -/
structure Back (way : Way) (m : Method) (e : KnlError) (t : ErrorTable) : Prop where
  method : t.method = some m.name
  kind : t.kind = some e.kind
  retryable : t.retryable = e.isRetryable
  message : t.message = e.reason
  text : some t.text = way.text (knlErr m e)

/-- It is read back, and a policy goes by it. -/
def ReadsBack (way : Way) (m : Method) (e : KnlError) : Prop :=
  (∃ t, errorTable (way.text (knlErr m e)) = some t ∧ Back way m e t) ∧ AsksAgain way m e

theorem named_of_no_kinds {tostring : Lua → String} {opts : Lua} {r : Retry}
    (hkinds : opts.get "kinds" = .nil) (h : retry tostring opts = .ok r) : r.named = none := by
  obtain ⟨max, -, h⟩ := Except.bind_eq_ok.mp h
  obtain ⟨named, hnamed, h⟩ := Except.bind_eq_ok.mp h
  rw [namedIn, hkinds] at hnamed
  cases hnamed
  cases h
  rfl

theorem get_tableOf (t : ErrorTable) (key : String) : (tableOf t).get key =
    Lua.lookup [("kind", t.kind.elim .nil .str), ("method", t.method.elim .nil .str),
      ("retryable", .bool t.retryable), ("message", .str t.message)] key :=
  Lua.get_record (by simp)

theorem get_outcomeErr (stage : String) (detail : Lua) (key : String) :
    (outcomeErr stage detail).get key =
      Lua.lookup [("status", .str "error"), ("kind", .str stage), ("detail", detail)] key :=
  Lua.get_record (by simp)

/-- Without `kinds` it is the judgement in the failure that counts. -/
theorem ask_detail {tostring : Lua → String} {r : Retry} {detail attempt : Lua} {made : LuaNumber}
    {retryable : Bool} (hnamed : r.named = none) (hmade : wholeAtLeast attempt 1 = some made)
    (stage : String) (htable : detail.isTable = true)
    (hretryable : detail.get "retryable" = .bool retryable)
    (hafter : detail.get "retry_after" = .nil) :
    r.ask tostring (outcomeErr stage detail) attempt =
      .ok (!r.max.le made && retryable, none) := by
  have hstatus : (outcomeErr stage detail).get "status" = .str "error" :=
    get_outcomeErr stage detail "status"
  have hdetail : (outcomeErr stage detail).get "detail" = detail :=
    get_outcomeErr stage detail "detail"
  have hworth : r.worth detail = retryable := by
    rw [Retry.worth, hnamed]
    show (detail.get "retryable").eq (.bool true) = _
    rw [hretryable]
    cases retryable <;> rfl
  rw [Retry.ask, hmade]
  show (if _ then _ else _) = _
  rw [hstatus, hdetail, hworth, hafter, htable]
  show (if r.max.le made = true then _ else if (!retryable) = true then _ else _) = _
  cases r.max.le made <;> cases retryable <;> rfl

/-- A policy of no options makes three attempts. -/
theorem retry_default (tostring : Lua → String) :
    retry tostring (.table [] []) = .ok ⟨none, DEFAULT_MAX_ATTEMPTS⟩ := rfl

/-- **Asking again about a kernel failure**: one that is no text is never asked
about. -/
theorem asksAgain_iff (way : Way) (m : Method) (e : KnlError) :
    AsksAgain way m e ↔ (way.IsText ∨ e.isRetryable = false) := by
  by_cases htext : way.IsText
  · refine iff_of_true ?_ (.inl htext)
    intro tostring opts r stage message attempt made hkinds hretry hmade
    obtain ⟨position, behind, hposition, hbehind⟩ := htext.parts
    rw [readError, Knl.errorTable_attributed hposition hbehind]
    exact ask_detail (named_of_no_kinds hkinds hretry) hmade stage rfl
      (get_tableOf _ "retryable") (get_tableOf _ "retry_after")
  · have hread : ∀ message, readError (way.text (knlErr m e)) message = unreadTable message := by
      intro message
      rw [readError, Knl.errorTable_of_not_isText htext]
    have hget : ∀ message key, (unreadTable message).get key =
        Lua.lookup [("retryable", .bool false), ("message", message)] key :=
      fun message key => Lua.get_record (by simp)
    constructor
    · intro hasks
      have hask := hasks (fun _ => "") (.table [] []) _ "state" .nil (.num (.int 1)) (.int 1) rfl
        (retry_default _) rfl
      rw [hread, ask_detail rfl rfl "state" rfl (hget .nil "retryable")
        (hget .nil "retry_after")] at hask
      exact .inr (congrArg Prod.fst (Except.ok.inj hask)).symm
    · rintro (h | hnot)
      · exact absurd h htext
      · intro tostring opts r stage message attempt made hkinds hretry hmade
        rw [hread, hnot]
        exact ask_detail (named_of_no_kinds hkinds hretry) hmade stage rfl
          (hget message "retryable") (hget message "retry_after")

/-- **A kernel failure read back is the failure that was raised** exactly if it
arrives as a text and its reason is of one line. -/
theorem failure_read_back (way : Way) (m : Method) (e : KnlError) :
    (ReadsBack way m e ↔ way.IsText ∧ OneLine way e.reason) ∧
      (AsksAgain way m e ↔ (way.IsText ∨ e.isRetryable = false)) := by
  refine ⟨?_, asksAgain_iff way m e⟩
  by_cases htext : way.IsText
  · obtain ⟨position, behind, hposition, hbehind⟩ := htext.parts
    have hread := Knl.errorTable_attributed hposition hbehind m e
    rw [← Knl.firstLine_eq_iff hbehind]
    constructor
    · rintro ⟨⟨t, ht, hback⟩, -⟩
      rw [hread] at ht
      obtain rfl := Option.some.inj ht
      have hline := congrArg String.toList hback.message
      rw [String.toList_ofList] at hline
      exact ⟨htext, hline⟩
    · rintro ⟨-, hline⟩
      refine ⟨⟨_, hread, rfl, rfl, rfl, ?_, ?_⟩, (asksAgain_iff way m e).mpr (.inl htext)⟩
      · rw [hline]
        exact String.ofList_toList
      · rw [Way.text, hposition, hbehind]
  · refine iff_of_false ?_ fun h => htext h.1
    rintro ⟨⟨t, ht, -⟩, -⟩
    rw [Knl.errorTable_of_not_isText htext] at ht
    cases ht

/-- Of a reason of two lines the second is not read. -/
theorem second_line_lost : ¬ ∀ (way : Way) (m : Method) (e : KnlError),
    (way.traceback.isSome → '\n' ∉ e.reason.toList) → ReadsBack way m e := by
  intro hclaim
  obtain ⟨⟨t, ht, hback⟩, -⟩ :=
    hclaim .direct ⟨"query", by decide⟩ (.validation "near\nFROM") nofun
  have hmessage := hback.message
  obtain rfl := Option.some.inj ht
  revert hmessage
  decide

end AgentBlock.Policy
