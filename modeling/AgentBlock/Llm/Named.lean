/-
AgentBlock/Llm/Named.lean

Every outcome of a model call is answered as data and under its own name:
exactly when nothing that is read of an answer is of a kind that has no fields.

A raise within the retry loop or the transport is caught and named after the
transport, whatever the provider answered; one past the transport goes out.
`open_named_iff` is the main result, and `postFrom_spec` what the retry loop
does.
-/
import AgentBlock.Llm.Readable
import Mathlib.Tactic.Linarith
import Mathlib.Tactic.Positivity
import Mathlib.Tactic.FieldSimp

namespace AgentBlock.Llm

open Except (bind_eq_ok)

/-! ### The retry loop -/

/-- An outcome after which the request is sent again: none, or an answer that
asking again could change. -/
def Retried (host : Host) : Except Lua Response → Prop
  | .error _ => True
  | .ok resp => resp.status ≠ 200 ∧
      ∃ classified, classifyError host resp = .ok classified ∧ classified.retryable = true

/-- How the loop ends with the outcome `o` of its last attempt: with that, or
with what reading it raised. -/
def Ended (host : Host) (o : Except Lua Response) (answer : Except Lua Response) : Prop :=
  answer = o ∨ ∃ resp raised, o = .ok resp ∧ resp.status ≠ 200 ∧
    classifyError host resp = .error raised ∧ answer = .error raised

theorem believed_bounds {retryAfter : LuaNumber} {after : Rat} (h : believed retryAfter = some after) :
    0 ≤ after ∧ after ≤ 60 := by
  cases retryAfter with
  | int n =>
      obtain ⟨⟨hpos, hmax⟩, h⟩ := Option.ite_none_right_eq_some.mp h
      obtain rfl := Option.some.inj h
      exact ⟨by exact_mod_cast hpos.le, hmax⟩
  | float q =>
      obtain ⟨⟨hpos, hmax⟩, h⟩ := Option.ite_none_right_eq_some.mp h
      obtain rfl := Option.some.inj h
      exact ⟨hpos.le, hmax⟩
  | _ => cases h

theorem retryDelay_bounds (attempt : Nat) (retryAfter : Option LuaNumber) (salt : Nat) :
    0 ≤ retryDelay attempt retryAfter salt ∧ retryDelay attempt retryAfter salt ≤ 60 := by
  rw [retryDelay]
  rcases hafter : retryAfter.bind believed with - | after
  · -- The curve is between nothing and its cap, and the share at most a quarter of it.
    have hbase : 0 ≤ min (retryBaseS * 2 ^ (attempt - 1)) retryCapS :=
      le_min (mul_nonneg (by norm_num [retryBaseS]) (by positivity)) (by norm_num [retryCapS])
    have hcap : min (retryBaseS * 2 ^ (attempt - 1)) retryCapS ≤ 8 := min_le_right _ _
    have hshare : ((salt % 5 : Nat) : Rat) ≤ 4 := by
      exact_mod_cast Nat.le_of_lt_succ (Nat.mod_lt salt (by norm_num))
    have hnonneg : (0 : Rat) ≤ (salt % 5 : Nat) := Nat.cast_nonneg _
    constructor
    · exact mul_nonneg hbase (by linarith)
    · calc min (retryBaseS * 2 ^ (attempt - 1)) retryCapS * (1 - (salt % 5 : Nat) / 16)
          ≤ min (retryBaseS * 2 ^ (attempt - 1)) retryCapS * 1 :=
            mul_le_mul_of_nonneg_left (by linarith) hbase
        _ ≤ 60 := by linarith
  · obtain ⟨n, -, hn⟩ := Option.bind_eq_some_iff.mp hafter
    exact believed_bounds hn

theorem waitThen_eq {host : Host} (hsleep : ∀ ms, 0 ≤ ms → ms ≤ 60000 → Returns (host.sleep ms))
    (attempt : Nat) (retryAfter : Option LuaNumber) (next : Posted) :
    waitThen host attempt retryAfter next = next := by
  obtain ⟨hlow, hhigh⟩ := retryDelay_bounds attempt retryAfter attempt
  obtain ⟨⟨⟩, hs⟩ := hsleep (retryDelay attempt retryAfter attempt * 1000)
    (mul_nonneg hlow (by norm_num)) (by linarith)
  rw [waitThen, hs]

/-- A loop from `attempt` on, of `left` retries at most, whose last attempt is
number `k`: those before are followed by another, and that by none. -/
structure Loop (host : Host) (opts : RequestOpts) (attempt left : Nat) (posted : Posted)
    (k : Nat) : Prop where
  le : attempt ≤ k
  bound : k ≤ attempt + left
  attempts : posted.attempts = k + 1
  retried : ∀ j, attempt ≤ j → j < k → Retried host (host.post opts j)
  last : k < attempt + left → ¬ Retried host (host.post opts k)
  ended : Ended host (host.post opts k) posted.answer

section

variable {host : Host} {opts : RequestOpts}

theorem Loop.stop {attempt left : Nat} {posted : Posted} (hattempts : posted.attempts = attempt + 1)
    (hnot : 0 < left → ¬ Retried host (host.post opts attempt))
    (hended : Ended host (host.post opts attempt) posted.answer) :
    Loop host opts attempt left posted attempt where
  le := Nat.le_refl _
  bound := Nat.le_add_right _ _
  attempts := hattempts
  retried := fun _ h1 h2 => absurd h2 (Nat.not_lt.mpr h1)
  last := fun h => hnot (by omega)
  ended := hended

theorem Loop.again {attempt left k : Nat} {posted : Posted}
    (hretried : Retried host (host.post opts attempt))
    (h : Loop host opts (attempt + 1) left posted k) :
    Loop host opts attempt (left + 1) posted k where
  le := Nat.le_of_succ_le h.le
  bound := by have := h.bound; omega
  attempts := h.attempts
  retried := by
    intro j hj1 hj2
    rcases Nat.eq_or_lt_of_le hj1 with rfl | hj1
    · exact hretried
    · exact h.retried j hj1 hj2
  last := fun hk => h.last (by omega)
  ended := h.ended

theorem postFrom_spec (hsleep : ∀ ms, 0 ≤ ms → ms ≤ 60000 → Returns (host.sleep ms))
    (attempt left : Nat) :
    ∃ k, Loop host opts attempt left (postFrom host opts attempt left) k := by
  induction left generalizing attempt with
  | zero => exact ⟨attempt, Loop.stop rfl (fun h => absurd h (Nat.lt_irrefl 0)) (.inl rfl)⟩
  | succ left ih =>
      obtain ⟨k, hk⟩ := ih (attempt + 1)
      rw [postFrom]
      rcases hpost : host.post opts attempt with raised | resp
      · simp only [waitThen_eq hsleep]
        exact ⟨k, hk.again (hpost ▸ trivial)⟩
      by_cases h200 : resp.status = 200
      · simp only [if_pos h200]
        exact ⟨attempt, Loop.stop rfl (fun _ => hpost ▸ fun h => h.1 h200) (.inl hpost.symm)⟩
      simp only [if_neg h200]
      rcases hclass : classifyError host resp with raised | classified
      · refine ⟨attempt, Loop.stop rfl (fun _ => ?_) (.inr ⟨resp, raised, hpost, h200, hclass, rfl⟩)⟩
        rw [hpost]
        rintro ⟨-, c, hc, -⟩
        cases hclass.symm.trans hc
      rcases hretry : classified.retryable with - | -
      · simp only [hretry, Bool.false_eq_true, if_false]
        refine ⟨attempt, Loop.stop rfl (fun _ => ?_) (.inl hpost.symm)⟩
        rw [hpost]
        rintro ⟨-, c, hc, hr⟩
        obtain rfl := Except.ok.inj (hclass.symm.trans hc)
        exact absurd (hretry.symm.trans hr) Bool.false_ne_true
      · simp only [hretry, if_true, waitThen_eq hsleep]
        exact ⟨k, hk.again (hpost ▸ ⟨h200, classified, hclass, hretry⟩)⟩

end

/-! ### Named after what became of it -/

/-- What the host reads as an array: a table with something in it, or one that is
tagged. -/
def IsList (host : Host) (v : Lua) : Prop :=
  ∃ items fields, v = .table items fields ∧ (host.len items ≠ 0 ∨ (items = [] ∧ fields = []))

/-- No answer, or one that says that there was none in time. -/
def Gone : Except Lua Response → Prop
  | .error _ => True
  | .ok resp => resp.status = 408 ∨ resp.status = 504

/-- The error is named after the outcome. -/
def NamedAfter (o : Except Lua Response) (e : CallError) : Prop :=
  (e.kind = .transport → Gone o) ∧
    (¬ Gone o → ∃ resp, o = .ok resp ∧ e.kind = kindOfStatus (some resp.status) ∧
      e.status = some resp.status)

section

variable (host : Host) (port : Port) (wire : Wire) (timeout : Option LuaNumber)

/-- The outcome of attempt number `i`. -/
def outcome (i : Nat) : Except Lua Response :=
  match host.encode wire.body with
  | .ok body => host.post
      { url := wire.url, headers := wire.headers, body, timeout := timeout.getD defaultTimeout } i
  | .error raised => .error raised

/-- A call answers, has not been made too often nor again without cause, and its
error is named after its last attempt. -/
structure Named (maxRetries : Nat) (call : Call) : Prop where
  answered : ∃ answer, call.answer = .ok answer ∧
    match answer with
    | .inl result => IsList host result.content ∧
        (result.refusal.isSome = true ↔ result.status = .refused)
    | .inr e => ∃ k, call.attempts = k + 1 ∧ NamedAfter (outcome host wire timeout k) e
  attempts : call.attempts ≤ maxRetries + 1
  retried : ∀ i, i + 1 < call.attempts → Retried host (outcome host wire timeout i)

/-- What is read of an outcome can be read: of a 200 its answer, of a failure its
error, unless it is named after the transport in any case. -/
def Clear : Except Lua Response → Prop
  | .error _ => True
  | .ok resp =>
      (resp.status = 200 → ∀ raw, host.decode resp.body = .ok raw → raw.truthy = true →
        port.Readable host raw) ∧
      (resp.status ≠ 200 → resp.status ≠ 408 → resp.status ≠ 504 → ErrorIndexable host resp)

/-- The body of the request can be encoded, and every outcome that follows only
such as are followed by another attempt is clear. -/
def AllClear (maxRetries : Nat) : Prop :=
  Returns (host.encode wire.body) ∧
    ∀ i ≤ maxRetries, (∀ j < i, Retried host (outcome host wire timeout j)) →
      Clear host port (outcome host wire timeout i)

end

section

variable {host : Host} {port : Port} {resp : Response} {seen : Seen}

theorem kindOfStatus_transport {status : Int} :
    kindOfStatus (some status) = .transport ↔ status = 408 ∨ status = 504 := by
  rw [kindOfStatus, statusKind]
  grind

theorem Retried.clear {o : Except Lua Response} (h : Retried host o) : Clear host port o := by
  cases o with
  | error raised => trivial
  | ok resp =>
      obtain ⟨h200, classified, hclass, -⟩ := h
      exact ⟨fun h => absurd h h200,
        fun _ _ _ => (returns_classifyError_iff host resp).mp ⟨classified, hclass⟩⟩

/-- An error of the kind of its status is named after it. -/
theorem namedAfter_status {e : CallError} (hkind : e.kind = kindOfStatus (some resp.status))
    (hstatus : e.status = some resp.status) : NamedAfter (.ok resp) e :=
  ⟨fun h => kindOfStatus_transport.mp (hkind.symm.trans h), fun _ => ⟨resp, rfl, hkind, hstatus⟩⟩

/-- An error that is named after the transport is that of an answer only where
that was not in time. -/
theorem namedAfter_transport_iff {e : CallError} {o : Except Lua Response}
    (hkind : e.kind = .transport) : NamedAfter o e ↔ Gone o := by
  constructor
  · exact fun h => h.1 hkind
  · exact fun h => ⟨fun _ => h, fun hn => absurd h hn⟩

theorem isList_responseBlocks {content : Lua} (h : content.isTable = true) :
    IsList host (responseBlocks host content) := by
  cases content with
  | table items fields =>
      rw [responseBlocks]
      split
      · exact ⟨[], [], rfl, .inr ⟨rfl, rfl⟩⟩
      · rename_i hlen
        exact ⟨items, fields, rfl, .inl hlen⟩
  | _ => cases h

theorem classify_refusal (port : Port) (result : Decoded) :
    (port.classify result).refusal.isSome = true ↔ (port.classify result).status = .refused := by
  cases port with
  | anthropic =>
      show (Anthropic.classify result).refusal.isSome = true ↔ _ = _
      rw [Port.classify, Anthropic.classify]
      split <;> simp
  | openai =>
      rw [Port.classify, Openai.classify]
      split_ifs <;> simp

/-- What a decoded answer becomes is a list, or an error of a kind for itself. -/
theorem readAnswer_spec {raw : Lua} {answer : LlmResult ⊕ CallError}
    (h : readAnswer host port raw seen = .ok answer) :
    match answer with
    | .inl result => IsList host result.content ∧
        (result.refusal.isSome = true ↔ result.status = .refused)
    | .inr e => e.kind = .unknown ∧ e.status = seen.status := by
  rw [readAnswer, bind_eq_ok] at h
  obtain ⟨parsed, -, h⟩ := h
  rcases parsed with perr | result
  · obtain rfl := Except.ok.inj h
    exact ⟨rfl, rfl⟩
  · rw [mapParsed] at h
    rcases hc : result.content.isTable with - | -
    · rw [hc] at h
      obtain rfl := Except.ok.inj h
      exact ⟨rfl, rfl⟩
    · rw [hc, Bool.not_true, if_neg Bool.false_ne_true, bind_eq_ok] at h
      obtain ⟨-, -, h⟩ := h
      obtain rfl := Except.ok.inj h
      exact ⟨isList_responseBlocks hc, classify_refusal port result⟩

end

/-! ### A call -/

/-- What the answer to a POST, or its raise, becomes. -/
def answerTo (host : Host) (port : Port) :
    Except Lua Response → Except Lua (LlmResult ⊕ CallError)
  | .error raised =>
      .ok (.inr (callError .transport ("http transport error: " ++ host.tostring raised) {}))
  | .ok resp =>
      let seen : Seen := { status := resp.status, retryAfter := retryAfterOf resp.headers }
      if resp.status = 200 then
        match decodeAnswer host resp.body with
        | .error terr => .ok (.inr (callError (kindOfStatus resp.status) terr seen))
        | .ok raw =>
            if !raw.truthy then
              .ok (.inr (callError (kindOfStatus resp.status) (host.tostring .nil) seen))
            else readAnswer host port raw seen
      else match classifyError host resp with
        | .ok classified =>
            .ok (.inr (callError (kindOfStatus resp.status) (errorText host resp classified) seen))
        | .error raised =>
            .ok (.inr (callError .transport ("http transport error: " ++ host.tostring raised) seen))

section

variable {host : Host} {port : Port} {wire : Wire} {timeout : Option LuaNumber}
  {maxRetries : Option Nat}

theorem openPort_eq {body : String} (hbody : host.encode wire.body = .ok body) :
    openPort host port maxRetries timeout (.ok wire) =
      let posted := postWithRetry host
        { url := wire.url, headers := wire.headers, body, timeout := timeout.getD defaultTimeout }
        (maxRetries.getD defaultMaxRetries)
      ⟨posted.attempts, answerTo host port posted.answer⟩ := by
  simp only [openPort, transport, hbody]
  generalize postWithRetry host _ _ = posted
  rcases posted with ⟨attempts, raised | resp⟩
  · rfl
  · simp only [answerTo]
    by_cases h200 : resp.status = 200
    · simp only [if_pos h200]
      rcases decodeAnswer host resp.body with terr | raw
      · rfl
      · simp only
        split <;> rfl
    · simp only [if_neg h200]
      rcases classifyError host resp with raised | classified
      · rfl
      · rfl

/-- What the last answer, or what reading it raised, becomes is named after it
exactly when it is clear. -/
theorem answerTo_iff (hlen : ∀ items, IsBorder items (host.len items)) {o answer : Except Lua Response}
    (hended : Ended host o answer) :
    (∃ a, answerTo host port answer = .ok a ∧
      match a with
      | .inl result => IsList host result.content ∧
          (result.refusal.isSome = true ↔ result.status = .refused)
      | .inr e => NamedAfter o e) ↔ Clear host port o := by
  -- Whatever is raised by reading a failure is named after the transport.
  have hunread : ∀ resp raised e, resp.status ≠ 200 → classifyError host resp = .error raised →
      e.kind = CallErrorKind.transport → (NamedAfter (.ok resp) e ↔ Clear host port (.ok resp)) := by
    intro resp raised e h200 hclass hkind
    rw [namedAfter_transport_iff hkind]
    have hindex : ¬ ErrorIndexable host resp := by
      rw [← returns_classifyError_iff, hclass]
      exact not_returns_error raised
    constructor
    · exact fun hgone => ⟨fun h => absurd h h200,
        fun _ h408 h504 => absurd hgone (by rintro (h | h) <;> contradiction)⟩
    · rintro ⟨-, hclear⟩
      by_contra hgone
      exact hindex (hclear h200 (fun h => hgone (.inl h)) fun h => hgone (.inr h))
  rcases hended with rfl | ⟨resp, raised, rfl, h200, hclass, rfl⟩
  · rcases answer with raised | resp
    · exact iff_of_true ⟨_, rfl, (namedAfter_transport_iff rfl).mpr trivial⟩ trivial
    · by_cases h200 : resp.status = 200
      · have hclear : Clear host port (.ok resp) ↔ ∀ raw, host.decode resp.body = .ok raw →
            raw.truthy = true → port.Readable host raw :=
          ⟨fun h => h.1 h200, fun h => ⟨fun _ => h, fun hn => absurd h200 hn⟩⟩
        rw [hclear]
        simp only [answerTo, if_pos h200, decodeAnswer]
        rcases hdecode : host.decode resp.body with raised | raw
        · exact iff_of_true ⟨_, rfl, namedAfter_status rfl rfl⟩ fun _ h => nomatch h
        · simp only [Except.ok.injEq, forall_eq']
          rcases htruthy : raw.truthy with - | -
          · exact iff_of_true ⟨_, rfl, namedAfter_status rfl rfl⟩ fun h => nomatch h
          · simp only [Bool.not_true, Bool.false_eq_true, if_false, true_implies]
            rw [← returns_readAnswer_iff hlen htruthy]
            constructor
            · exact fun ⟨a, ha, _⟩ => ⟨a, ha⟩
            · rintro ⟨a, ha⟩
              refine ⟨a, ha, ?_⟩
              have hspec := readAnswer_spec ha
              rcases a with result | e
              · exact hspec
              · refine namedAfter_status (hspec.1.trans ?_) hspec.2
                rw [h200]
                rfl
      · simp only [answerTo, if_neg h200]
        rcases hclass : classifyError host resp with raised | classified
        · constructor
          · rintro ⟨a, ha, h⟩
            obtain rfl := Except.ok.inj ha
            exact (hunread resp raised _ h200 hclass rfl).mp h
          · exact fun h => ⟨_, rfl, (hunread resp raised _ h200 hclass rfl).mpr h⟩
        · refine iff_of_true ⟨_, rfl, namedAfter_status rfl rfl⟩ ⟨fun h => absurd h h200, ?_⟩
          exact fun _ _ _ => (returns_classifyError_iff host resp).mp ⟨classified, hclass⟩
  · constructor
    · rintro ⟨a, ha, h⟩
      obtain rfl := Except.ok.inj ha
      exact (hunread resp raised _ h200 hclass rfl).mp h
    · exact fun h => ⟨_, rfl, (hunread resp raised _ h200 hclass rfl).mpr h⟩

end

section

variable {host : Host} {port : Port} {wire : Wire} {timeout : Option LuaNumber}

/-- Every outcome of a call is answered as data and under its own name exactly
when its request can be encoded and every answer that is reached is clear. -/
theorem open_named_iff (hlen : ∀ items, IsBorder items (host.len items))
    (hsleep : ∀ ms, 0 ≤ ms → ms ≤ 60000 → Returns (host.sleep ms)) (maxRetries : Option Nat) :
    Named host wire timeout (maxRetries.getD defaultMaxRetries)
        (openPort host port maxRetries timeout (.ok wire)) ↔
      AllClear host port wire timeout (maxRetries.getD defaultMaxRetries) := by
  rcases hbody : host.encode wire.body with raised | body
  · -- Nothing was sent, and there is no attempt to name the error after.
    constructor
    · rintro ⟨⟨answer, hanswer, h⟩, -, -⟩
      simp only [openPort, transport, hbody, Except.ok.injEq] at hanswer h
      obtain rfl := hanswer
      obtain ⟨k, hk, -⟩ := h
      exact absurd hk.symm (Nat.succ_ne_zero k)
    · rintro ⟨⟨body, hb⟩, -⟩
      cases hbody.symm.trans hb
  · have houtcome : ∀ i, outcome host wire timeout i = host.post
        { url := wire.url, headers := wire.headers, body, timeout := timeout.getD defaultTimeout }
        i := by
      intro i
      rw [outcome, hbody]
    obtain ⟨k, hloop⟩ := @postFrom_spec host
      { url := wire.url, headers := wire.headers, body, timeout := timeout.getD defaultTimeout }
      hsleep 0 (maxRetries.getD defaultMaxRetries)
    have hcall := @openPort_eq host port wire timeout maxRetries body hbody
    have hanswer := @answerTo_iff host port hlen _ _ hloop.ended
    rw [← houtcome] at hanswer
    -- Of the outcomes that are reached only the last may not be clear.
    have hclear : AllClear host port wire timeout (maxRetries.getD defaultMaxRetries) ↔
        Clear host port (outcome host wire timeout k) := by
      constructor
      · rintro ⟨-, hall⟩
        exact hall k (by simpa using hloop.bound) fun j hj =>
          (houtcome j).symm ▸ hloop.retried j (Nat.zero_le j) hj
      · refine fun hk => ⟨⟨body, hbody⟩, fun i hi hbefore => ?_⟩
        rcases Nat.lt_trichotomy i k with hik | rfl | hik
        · exact ((houtcome i).symm ▸ hloop.retried i (Nat.zero_le i) hik : Retried host _).clear
        · exact hk
        · exact absurd (houtcome k ▸ hbefore k hik) (hloop.last (by omega))
    rw [hclear, ← hanswer, hcall]
    constructor
    · rintro ⟨⟨a, ha, h⟩, -, -⟩
      refine ⟨a, ha, ?_⟩
      rcases a with result | e
      · exact h
      · obtain ⟨k', hk', hnamed⟩ := h
        obtain rfl : k = k' := Nat.succ.inj (hloop.attempts.symm.trans hk')
        exact hnamed
    · rintro ⟨a, ha, h⟩
      refine ⟨⟨a, ha, ?_⟩, ?_, ?_⟩
      · rcases a with result | e
        · exact h
        · exact ⟨k, hloop.attempts, h⟩
      · show (postFrom host _ 0 _).attempts ≤ _
        have hbound := hloop.bound
        rw [hloop.attempts]
        omega
      · intro i hi
        rw [houtcome]
        exact hloop.retried i (Nat.zero_le i)
          (Nat.lt_of_succ_lt_succ (hloop.attempts ▸ hi : i + 1 < k + 1))

end

/-! ### A server that answers 400 -/

theorem isBorder_takeWhile (items : List Lua) :
    IsBorder items (items.takeWhile fun v => !v.isNil).length := by
  induction items with
  | nil => exact ⟨Nat.le_refl _, fun h => absurd h (Nat.lt_irrefl 0), rfl⟩
  | cons v items ih =>
      rcases hv : v.isNil with - | -
      · rw [List.takeWhile_cons_of_pos (by rw [hv]; rfl), List.length_cons]
        refine ⟨Nat.succ_le_succ ih.le, fun _ => ?_, ih.after⟩
        have hbefore := ih.before
        rw [Nat.add_sub_cancel]
        rcases hn : (items.takeWhile fun v => !v.isNil).length with - | n
        · rw [hn]
          exact hv
        · rw [hn] at hbefore ⊢
          exact hbefore (Nat.succ_pos n)
      · rw [List.takeWhile_cons_of_neg (by rw [hv]; exact Bool.false_ne_true)]
        exact ⟨Nat.zero_le _, fun h => absurd h (Nat.lt_irrefl 0), hv⟩

/-- A host whose POST is answered with 400 and with a body that decodes to an
object of this error. -/
def answers400 (err : Lua) : Host where
  post := fun _ _ => .ok { status := 400, headers := [], body := "400" }
  sleep := fun _ => .ok ()
  encode := fun _ => .ok "body"
  decode := fun _ => .ok (.table [] [("error", err)])
  len := fun items => (items.takeWhile fun v => !v.isNil).length
  shown := fun v => v.type
  debugRaw := false
  dev := false

def wireOf (url : String) : Wire := { url, headers := [], body := .table [] [] }

/-- An error that is an object is told as that of its status. -/
theorem a_400_is_named :
    Named (answers400 (.record [("message", .str "no such model")])) (wireOf "/v1/messages") none 2
      (openPort (answers400 (.record [("message", .str "no such model")])) .anthropic none none
        (.ok (wireOf "/v1/messages"))) :=
  (open_named_iff isBorder_takeWhile (fun _ _ _ => returns_ok _) none).mpr
    ⟨returns_ok _, fun _ _ _ => ⟨fun h => absurd h (by decide), fun _ _ _ => rfl⟩⟩

/-- An error that is `true` is told as a dropped connection, of no status. -/
theorem a_400_with_no_fields_is_a_dropped_connection :
    ¬ Named (answers400 (.bool true)) (wireOf "/v1/messages") none 2
      (openPort (answers400 (.bool true)) .anthropic none none (.ok (wireOf "/v1/messages"))) := by
  rintro ⟨⟨answer, hanswer, h⟩, -, -⟩
  obtain rfl := Except.ok.inj hanswer
  obtain ⟨k, hk, hnamed⟩ := h
  have hgone : Gone (.ok { status := 400, headers := [], body := "400" }) := hnamed.1 rfl
  rcases hgone with h | h
  · exact absurd h (by decide)
  · exact absurd h (by decide)

end AgentBlock.Llm
