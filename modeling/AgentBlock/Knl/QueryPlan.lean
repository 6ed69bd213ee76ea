/-
AgentBlock/Knl/QueryPlan.lean

What a query plan is of the statement it was made from.

`scan_ok_iff` and `plan_ok_iff` say when a statement is scanned and planned, and
with what result, in the lexemes of the caller's text; the results about wrapping,
resolution and use of the values follow from these two and from
`lexemes_rewritten`.
-/
import AgentBlock.Knl.QueryLexed

namespace AgentBlock.Knl.Query

open Lexemes

/-! ### The scan -/

/-- Whitespace, or a comment. -/
def Lexeme.isQuiet : Lexeme → Bool
  | .space | .lineComment | .blockComment _ => true
  | _ => false

/-- Nothing but whitespace and comments follows a semicolon. -/
def oneStatement (ended : Bool) : List (Lexeme × Bytes) → Bool
  | [] => true
  | l :: ls =>
      if l.1.isQuiet then oneStatement ended ls
      else !ended && oneStatement (l.1 = .semicolon) ls

/-- The first word, in upper case. -/
def firstWord : List (Lexeme × Bytes) → Option Bytes
  | [] => none
  | (.word, own) :: _ => some (own.map toUpper)
  | _ :: ls => firstWord ls

/-- The parameters among lexemes that begin at `pos`. -/
def tokensAt (pos : Nat) : List (Lexeme × Bytes) → List Token
  | [] => []
  | (.param p, own) :: ls => ⟨pos, pos + own.length, p⟩ :: tokensAt (pos + own.length) ls
  | (_, own) :: ls => tokensAt (pos + own.length) ls

/-- The scan's refusal of a second statement. -/
def secondStatement : KnlError :=
  .validation "a query is one statement: there is SQL after the `;`"

/-- What the scan makes of a lexeme, where it makes anything of it. -/
def Scanning.after (s : Scanning) (l : Lexeme × Bytes) : Scanning where
  pos := s.pos + l.2.length
  keyword := s.keyword.orElse fun _ => firstWord [l]
  params := s.params ++ tokensAt s.pos [l]
  ended := s.ended || l.1 = .semicolon

theorem scanLexeme_eq (s : Scanning) (l : Lexeme × Bytes) :
    scanLexeme s l =
      if l.1.isQuiet = false ∧ s.ended = true then .error secondStatement else .ok (s.after l) := by
  obtain ⟨pos, keyword, params, ended⟩ := s
  obtain ⟨kind, own⟩ := l
  cases kind <;> cases ended <;> cases keyword <;>
    simp [scanLexeme, Scanning.after, Lexeme.isQuiet, secondStatement, firstWord, tokensAt]

theorem firstWord_cons (l : Lexeme × Bytes) (ls : List (Lexeme × Bytes)) :
    firstWord (l :: ls) = (firstWord [l]).orElse fun _ => firstWord ls := by
  obtain ⟨kind, own⟩ := l
  cases kind <;> rfl

theorem tokensAt_cons (pos : Nat) (l : Lexeme × Bytes) (ls : List (Lexeme × Bytes)) :
    tokensAt pos (l :: ls) = tokensAt pos [l] ++ tokensAt (pos + l.2.length) ls := by
  obtain ⟨kind, own⟩ := l
  cases kind <;> rfl

theorem tokensAt_append (pos : Nat) (ls ms : List (Lexeme × Bytes)) :
    tokensAt pos (ls ++ ms) = tokensAt pos ls ++ tokensAt (pos + (text ls).length) ms := by
  induction ls generalizing pos with
  | nil => rfl
  | cons l ls ih =>
      rw [List.cons_append, tokensAt_cons, ih, tokensAt_cons pos l ls, List.append_assoc, text_cons,
        List.length_append, Nat.add_assoc]

/-- **The scan of lexemes, from any state it can be in.** -/
theorem foldlM_scanLexeme (s : Scanning) (ls : List (Lexeme × Bytes)) :
    ls.foldlM scanLexeme s =
      if oneStatement s.ended ls then
        .ok {
          pos := s.pos + (text ls).length
          keyword := s.keyword.orElse fun _ => firstWord ls
          params := s.params ++ tokensAt s.pos ls
          ended := s.ended || ls.any (·.1 = .semicolon) }
      else .error secondStatement := by
  induction ls generalizing s with
  | nil => simp [oneStatement, firstWord, tokensAt, pure, Except.pure]
  | cons l ls ih =>
      rw [List.foldlM_cons, scanLexeme_eq, oneStatement]
      by_cases hstop : l.1.isQuiet = false ∧ s.ended = true
      · rw [if_pos hstop, hstop.1, hstop.2]
        rfl
      rw [if_neg hstop]
      show ls.foldlM scanLexeme (s.after l) = _
      rw [ih]
      -- a lexeme that is let through leaves `ended` as `oneStatement` has it
      have hgo : oneStatement (s.after l).ended ls =
          if l.1.isQuiet then oneStatement s.ended ls
          else !s.ended && oneStatement (l.1 = .semicolon) ls := by
        obtain ⟨kind, own⟩ := l
        cases kind <;> cases hended : s.ended <;> simp_all [Scanning.after, Lexeme.isQuiet]
      rw [hgo]
      refine if_congr Iff.rfl (congrArg Except.ok ?_) rfl
      rw [Scanning.mk.injEq, firstWord_cons, tokensAt_cons s.pos l ls, text_cons, List.length_append,
        List.any_cons]
      refine ⟨?_, ?_, ?_, ?_⟩
      · exact Nat.add_assoc _ _ _
      · cases hk : s.keyword with
        | none => simp [Scanning.after, hk]
        | some k => simp [Scanning.after, hk]
      · exact List.append_assoc _ _ _
      · exact Bool.or_assoc _ _ _

/-- **When a text is scanned, and what the scan finds.** -/
theorem scan_ok_iff {sql : Bytes} {found : Scanned} :
    scan sql = .ok found ↔
      oneStatement false (lexemes next sql) = true ∧
        firstWord (lexemes next sql) = some found.keyword ∧
        found.params = tokensAt 0 (lexemes next sql) := by
  obtain ⟨keyword, params⟩ := found
  rw [scan, foldlM_scanLexeme]
  cases hone : oneStatement false (lexemes next sql) with
  | false =>
      rw [if_neg nofun]
      constructor
      · exact nofun
      · rintro ⟨⟨⟩, -⟩
  | true =>
      rw [if_pos rfl]
      cases hword : firstWord (lexemes next sql) with
      | none => simp [bind, Except.bind]
      | some word => simp [bind, Except.bind, eq_comm]

theorem scan_error {sql : Bytes} {e : KnlError} (h : scan sql = .error e) :
    e.isValidation = true := by
  rw [scan, foldlM_scanLexeme] at h
  split at h
  · cases hword : firstWord (lexemes next sql) with
    | none =>
        simp only [bind, Except.bind, Option.orElse_none, hword, Except.error.injEq] at h
        rw [← h]
        rfl
    | some word => simp [bind, Except.bind, hword] at h
  · obtain rfl := Except.error.inj h
    rfl

/-! ### Which value answers a parameter -/

/-- A value of the caller's: by its place in the list, or by its name. -/
inductive Ref where
  | nth (i : Nat)
  | key (name : String)
  deriving DecidableEq

/-- The value itself. -/
def QueryParams.value (params : QueryParams) : Ref → Option Json
  | .nth i => params.given[i]?
  | .key name =>
      match params with
      | .named members => members.get? name
      | _ => Option.none

/-- The bare question marks among parameters. -/
def positionals (tokens : List Token) : Nat := tokens.countP (·.param = .positional)

/-- The name under which the caller has a value for `name`: without its prefix
if there is one, else in full. -/
def QueryParams.nameFor (params : QueryParams) (name : Bytes) : Option String :=
  [textOf name.tail, textOf name].find? fun key => (params.value (.key key)).isSome

/-- The value of the caller's that `token` is to get, where `before` are the
parameters in front of it. -/
def refOf (params : QueryParams) (before : List Token) (token : Token) : Option Ref :=
  match token.param with
  | .positional => some (.nth (positionals before))
  | .named name => (params.nameFor name).map .key
  | _ => none

/-- The parameters that are the kernel's own. -/
def Param.isReserved : Param → Bool
  | .stream | .sessions => true
  | _ => false

/-- A value SQLite has. -/
def isScalar : Json → Bool
  | .arr _ | .obj _ => false
  | _ => true

/-- The caller's value for `token`. -/
def callers (params : QueryParams) (before : List Token) (token : Token) : Option Json :=
  (refOf params before token).bind params.value

/-- The parameter has its value. -/
def Answered (params : QueryParams) (before : List Token) (token : Token) : Prop :=
  token.param.isReserved = true ∨
    ∃ v, callers params before token = some v ∧ isScalar v = true

/-- Every parameter has its value. -/
def AllAnswered (params : QueryParams) : List Token → List Token → Prop
  | _, [] => True
  | before, token :: rest =>
      Answered params before token ∧ AllAnswered params (before ++ [token]) rest

section

variable (params : QueryParams) (stream : String) (sessions : List String)

/-- The values bound for one parameter. -/
def valuesOf (before : List Token) (token : Token) : List Json :=
  match token.param with
  | .stream => [.str stream]
  | .sessions => sessions.map .str
  | _ => (callers params before token).toList

/-- The values bound for each parameter. -/
def bound : List Token → List Token → List (List Json)
  | _, [] => []
  | before, token :: rest =>
      valuesOf params stream sessions before token :: bound (before ++ [token]) rest

end

section

variable {params : QueryParams} {stream : String} {sessions : List String}

theorem scalar_eq (value : Json) :
    scalar value =
      if isScalar value then .ok value
      else .error (.validation ("a " ++ typeNameOf value ++ " is not a SQLite value")) := by
  cases value <;> rfl

theorem lookup_eq (members : Obj) (name : Bytes) :
    lookup members name =
      ((QueryParams.named members).nameFor name).bind fun key =>
        (QueryParams.named members).value (.key key) := by
  have hvalue : ∀ key, (QueryParams.named members).value (.key key) = members.get? key :=
    fun _ => rfl
  rw [lookup, QueryParams.nameFor, List.find?_cons, List.find?_cons, List.find?_nil]
  simp only [hvalue]
  cases hbare : members.get? (textOf name.tail) with
  | some v => simp [hbare]
  | none =>
      cases hfull : members.get? (textOf name) with
      | some v => simp [hfull]
      | none => simp

theorem callers_positional (before : List Token) (start stop : Nat) :
    callers params before ⟨start, stop, .positional⟩ = params.given[positionals before]? := rfl

theorem callers_named (members : Obj) (before : List Token) (start stop : Nat) (name : Bytes) :
    callers (.named members) before ⟨start, stop, .named name⟩ = lookup members name := by
  rw [lookup_eq]
  show Option.bind (Option.map _ _) _ = _
  rw [Option.bind_map]
  rfl

/-- Who gives no names has no value for one. -/
theorem callers_of_not_named {before : List Token} {start stop : Nat} {name : Bytes}
    (h : ∀ members, params ≠ .named members) :
    callers params before ⟨start, stop, .named name⟩ = none := by
  have hvalue : ∀ key, params.value (.key key) = none := by
    cases params with
    | named members => exact absurd rfl (h members)
    | none => exact fun _ => rfl
    | positional values => exact fun _ => rfl
  show Option.bind (Option.map _ _) _ = _
  rw [Option.bind_map]
  exact Option.bind_eq_none_iff.mpr fun key _ => hvalue key

/-- A parameter of the caller's is answered if its value is one SQLite has. -/
theorem answered_iff {before : List Token} {token : Token}
    (h : token.param.isReserved = false) :
    Answered params before token ↔
      ∃ v, callers params before token = some v ∧ isScalar v = true :=
  ⟨fun ha => ha.resolve_left (by rw [h]; exact nofun), Or.inr⟩

/-- Taking a value that is there, if SQLite has it. -/
theorem scalar_bind_ok_iff {value : Json} {n : Nat} {vs : List Json} {taken : Nat} :
    (do .ok ([← scalar value], n) : Except KnlError (List Json × Nat)) = .ok (vs, taken) ↔
      isScalar value = true ∧ vs = [value] ∧ taken = n := by
  rw [scalar_eq]
  cases isScalar value with
  | true => simp [bind, Except.bind, eq_comm]
  | false => simp [bind, Except.bind]

/-- **What one parameter binds**: it is refused unless it is answered. -/
theorem answer_ok_iff {sql : Bytes} {before : List Token} {token : Token} {vs : List Json}
    {taken : Nat} :
    answer sql params stream sessions token (positionals before) = .ok (vs, taken) ↔
      Answered params before token ∧ vs = valuesOf params stream sessions before token ∧
        taken = positionals (before ++ [token]) := by
  obtain ⟨start, stop, param⟩ := token
  have hcount : positionals (before ++ [⟨start, stop, param⟩]) =
      positionals before + if param = .positional then 1 else 0 := by
    simp [positionals, List.countP_append, List.countP_cons]
  rw [hcount]
  cases param with
  | stream =>
      have hanswered : Answered params before ⟨start, stop, .stream⟩ := Or.inl rfl
      simp [answer, hanswered, valuesOf, eq_comm]
  | sessions =>
      have hanswered : Answered params before ⟨start, stop, .sessions⟩ := Or.inl rfl
      simp [answer, hanswered, valuesOf, eq_comm]
  | numbered =>
      have hnone : callers params before ⟨start, stop, .numbered⟩ = none := rfl
      rw [answered_iff rfl, hnone]
      simp [answer]
  | positional =>
      rw [answered_iff rfl, valuesOf, callers_positional, answer]
      cases params.given[positionals before]? with
      | none => simp
      | some v =>
          rw [scalar_bind_ok_iff]
          simp
  | named name =>
      rw [answered_iff rfl, valuesOf, answer]
      cases params with
      | named members =>
          rw [callers_named]
          dsimp only
          cases lookup members name with
          | none => simp
          | some v =>
              rw [scalar_bind_ok_iff]
              simp
      | none =>
          rw [callers_of_not_named (by simp)]
          simp
      | positional values =>
          rw [callers_of_not_named (by simp)]
          simp

/-! ### The plan -/

theorem answer_error {sql : Bytes} {taken : Nat} {token : Token} {e : KnlError}
    (h : answer sql params stream sessions token taken = .error e) : e.isValidation = true := by
  have hscalar : ∀ {value : Json} {n : Nat} {e : KnlError},
      (do .ok ([← scalar value], n) : Except KnlError (List Json × Nat)) = .error e →
        e.isValidation = true := by
    intro value n e h
    rw [scalar_eq] at h
    split at h
    · cases h
    · obtain rfl := Except.error.inj h
      rfl
  rw [answer] at h
  split at h
  · cases h
  · cases h
  · split at h
    · obtain rfl := Except.error.inj h
      rfl
    · exact hscalar h
  · obtain rfl := Except.error.inj h
    rfl
  · split at h
    · split at h
      · obtain rfl := Except.error.inj h
        rfl
      · exact hscalar h
    · obtain rfl := Except.error.inj h
      rfl

theorem resolveFrom_error {sql : Bytes} {cursor taken : Nat} {tokens : List Token} {e : KnlError}
    (h : resolveFrom sql params stream sessions cursor taken tokens = .error e) :
    e.isValidation = true := by
  induction tokens generalizing cursor taken with
  | nil => cases h
  | cons token rest ih =>
      rw [resolveFrom] at h
      cases hanswer : answer sql params stream sessions token taken with
      | error e' =>
          rw [hanswer] at h
          obtain rfl := Except.error.inj h
          exact answer_error hanswer
      | ok bound =>
          rw [hanswer] at h
          cases hrest : resolveFrom sql params stream sessions token.stop bound.2 rest with
          | error e' =>
              simp only [bind, Except.bind, hrest, Except.error.injEq] at h
              subst h
              exact ih hrest
          | ok out => simp [bind, Except.bind, hrest] at h

/-- One parameter of the walk. -/
theorem resolveFrom_cons_ok_iff {sql : Bytes} {cursor : Nat} {before rest : List Token}
    {token : Token} {out : Bytes} {values : List Json} {taken : Nat} :
    resolveFrom sql params stream sessions cursor (positionals before) (token :: rest) =
        .ok (out, values, taken) ↔
      Answered params before token ∧ ∃ out' values',
        resolveFrom sql params stream sessions token.stop (positionals (before ++ [token])) rest =
          .ok (out', values', taken) ∧
        out = (sql.take token.start).drop cursor ++ placeholder sessions token.param ++ out' ∧
        values = valuesOf params stream sessions before token ++ values' := by
  rw [resolveFrom]
  cases hanswer : answer sql params stream sessions token (positionals before) with
  | error e =>
      refine ⟨nofun, fun ⟨ha, _⟩ => ?_⟩
      have hok : answer sql params stream sessions token (positionals before) = .ok (_, _) :=
        answer_ok_iff.mpr ⟨ha, rfl, rfl⟩
      rw [hanswer] at hok
      cases hok
  | ok got =>
      obtain ⟨vs, n⟩ := got
      obtain ⟨ha, rfl, rfl⟩ := answer_ok_iff.mp hanswer
      show (resolveFrom _ _ _ _ _ _ rest).bind _ = _ ↔ _
      cases hrest : resolveFrom sql params stream sessions token.stop
          (positionals (before ++ [token])) rest with
      | error e => exact ⟨nofun, fun ⟨_, _, _, h, _⟩ => nomatch h⟩
      | ok tail =>
          obtain ⟨out', values', n'⟩ := tail
          constructor
          · intro h
            obtain ⟨rfl, hvalues⟩ := Prod.mk.inj (Except.ok.inj h)
            obtain ⟨rfl, rfl⟩ := Prod.mk.inj hvalues
            exact ⟨ha, out', values', rfl, rfl, rfl⟩
          · rintro ⟨-, out'', values'', h, rfl, rfl⟩
            obtain ⟨rfl, hvalues⟩ := Prod.mk.inj (Except.ok.inj h)
            obtain ⟨rfl, rfl⟩ := Prod.mk.inj hvalues
            rfl

/-- One lexeme of a text, copied from `cursor`. -/
theorem copy_lexeme {sql own rest : Bytes} {pos cursor : Nat} (htext : sql.drop pos = own ++ rest)
    (hcursor : cursor ≤ pos) :
    (sql.take (pos + own.length)).drop cursor = (sql.take pos).drop cursor ++ own := by
  rw [List.take_add, htext, List.take_left]
  by_cases hlen : pos ≤ sql.length
  · rw [List.drop_append_of_le_length]
    rwa [List.length_take, Nat.min_eq_left hlen]
  · have hnil : own = [] := by
      rw [List.drop_of_length_le (Nat.le_of_lt (Nat.not_le.mp hlen))] at htext
      exact (List.append_eq_nil_iff.mp htext.symm).1
    rw [hnil, List.append_nil, List.append_nil]

/-- **What the walk over the lexemes from `pos` on gives**, with the text from
`cursor` to `pos` still to be copied. -/
theorem resolveFrom_ok_iff {sql : Bytes} {ls : List (Lexeme × Bytes)} {pos cursor : Nat}
    {before : List Token} {out : Bytes} {values : List Json} {taken : Nat}
    (htext : sql.drop pos = text ls) (hcursor : cursor ≤ pos) :
    resolveFrom sql params stream sessions cursor (positionals before) (tokensAt pos ls) =
        .ok (out, values, taken) ↔
      AllAnswered params before (tokensAt pos ls) ∧
        out = (sql.take pos).drop cursor ++ text (rewritten sessions ls) ∧
        values = (bound params stream sessions before (tokensAt pos ls)).flatten ∧
        taken = positionals (before ++ tokensAt pos ls) := by
  induction ls generalizing pos cursor before out values taken with
  | nil =>
      have hlen : sql.length ≤ pos := List.drop_eq_nil_iff.mp htext
      have hout : (sql.take pos).drop cursor ++ text (rewritten sessions []) = sql.drop cursor := by
        rw [List.take_of_length_le hlen]
        exact List.append_nil _
      rw [hout, tokensAt, List.append_nil]
      simp [resolveFrom, AllAnswered, bound, eq_comm]
  | cons l ls ih =>
      have hnext : sql.drop (pos + l.2.length) = text ls := by
        rw [← List.drop_drop, htext, text_cons, List.drop_left]
      have hcopy := copy_lexeme htext hcursor
      obtain ⟨kind, own⟩ := l
      cases kind with
      | param p =>
          -- the parameter itself is not copied: its placeholder stands for it
          have hnone : (sql.take (pos + own.length)).drop (pos + own.length) = [] :=
            List.drop_of_length_le (List.length_take_le _ _)
          have hout : text (rewritten sessions ((.param p, own) :: ls)) =
              placeholder sessions p ++ text (rewritten sessions ls) := by
            rw [← text_placed, ← text_append]
            rfl
          rw [tokensAt, resolveFrom_cons_ok_iff, AllAnswered, bound, List.flatten_cons, hout]
          constructor
          · rintro ⟨ha, out', values', hrest, rfl, rfl⟩
            obtain ⟨hall, rfl, rfl, rfl⟩ := (ih hnext (Nat.le_refl _)).mp hrest
            rw [hnone, List.append_assoc, List.append_assoc]
            exact ⟨⟨ha, hall⟩, rfl, rfl, rfl⟩
          · rintro ⟨⟨ha, hall⟩, rfl, rfl, rfl⟩
            refine ⟨ha, _, _, (ih hnext (Nat.le_refl _)).mpr ⟨hall, rfl, rfl, ?_⟩, ?_, rfl⟩
            · rw [List.append_assoc]
              rfl
            · rw [hnone, List.append_assoc]
              rfl
      | _ =>
          have hstep := @ih (pos + own.length) cursor before out values taken hnext
            (Nat.le_trans hcursor (Nat.le_add_right _ _))
          rw [hcopy, List.append_assoc] at hstep
          exact hstep

theorem allAnswered_get {before tokens : List Token} (h : AllAnswered params before tokens) {j : Nat}
    {token : Token} (hj : tokens[j]? = some token) :
    Answered params (before ++ tokens.take j) token := by
  induction tokens generalizing before j with
  | nil => cases hj
  | cons t rest ih =>
      cases j with
      | zero =>
          obtain rfl := Option.some.inj hj
          rw [List.take_zero, List.append_nil]
          exact h.1
      | succ j =>
          have hrest := ih h.2 hj
          rwa [List.append_assoc] at hrest

/-- What a request is beside its statement and values. -/
structure Asked (sql : Bytes) (opts : QueryOpts) (stream : String) (sessions : List String)
    (found : Scanned) : Prop where
  sessions : sessionsOf opts stream = .ok sessions
  timeout : opts.timeoutMs ≠ 0
  scanned : scan sql = .ok found
  reads : found.keyword ∈ READ_KEYWORDS

/-- The plan of a request whose parameters all have their values. -/
def planned (sql : Bytes) (params : QueryParams) (opts : QueryOpts) (stream : String)
    (sessions : List String) (tokens : List Token) : QueryPlan where
  sql := text (rewritten sessions (lexemes next sql))
  values := (bound params stream sessions [] tokens).flatten
  stream := stream
  sessions := sessions
  params := params
  timeoutMs := opts.timeoutMs
  limit := opts.limit

theorem resolve_ok_iff {sql : Bytes} {out : Bytes} {values : List Json} :
    resolve sql params stream sessions (tokensAt 0 (lexemes next sql)) = .ok (out, values) ↔
      AllAnswered params [] (tokensAt 0 (lexemes next sql)) ∧
        params.given.length ≤ positionals (tokensAt 0 (lexemes next sql)) ∧
        out = text (rewritten sessions (lexemes next sql)) ∧
        values = (bound params stream sessions [] (tokensAt 0 (lexemes next sql))).flatten := by
  have hwalk := fun out values taken => @resolveFrom_ok_iff params stream sessions sql
    (lexemes next sql) 0 0 [] out values taken (text_lexemes next sql).symm (Nat.le_refl 0)
  rw [resolve]
  cases hfrom : resolveFrom sql params stream sessions 0 0 (tokensAt 0 (lexemes next sql)) with
  | error e =>
      refine ⟨nofun, fun ⟨hall, _⟩ => ?_⟩
      have hok := (hwalk _ _ _).mpr ⟨hall, rfl, rfl, rfl⟩
      rw [show positionals [] = 0 from rfl, hfrom] at hok
      cases hok
  | ok got =>
      obtain ⟨out', values', taken⟩ := got
      obtain ⟨hall, rfl, rfl, rfl⟩ := (hwalk _ _ _).mp hfrom
      show (if _ then _ else _) = _ ↔ _
      split
      · next hmore => exact ⟨nofun, fun h => absurd hmore (Nat.not_lt.mpr h.2.1)⟩
      · next hmore =>
        rw [Except.ok.injEq, Prod.mk.injEq]
        constructor
        · rintro ⟨rfl, rfl⟩
          exact ⟨hall, Nat.not_lt.mp hmore, rfl, rfl⟩
        · rintro ⟨-, -, rfl, rfl⟩
          exact ⟨rfl, rfl⟩

theorem resolve_error {sql : Bytes} {tokens : List Token} {e : KnlError}
    (h : resolve sql params stream sessions tokens = .error e) : e.isValidation = true := by
  rw [resolve] at h
  cases hfrom : resolveFrom sql params stream sessions 0 0 tokens with
  | error e' =>
      rw [hfrom] at h
      obtain rfl := Except.error.inj h
      exact resolveFrom_error hfrom
  | ok got =>
      rw [hfrom] at h
      change (if _ then _ else _) = _ at h
      split at h
      · obtain rfl := Except.error.inj h
        rfl
      · cases h

/-- **When a request is planned, and what the plan is.** -/
theorem plan_ok_iff {sql : Bytes} {opts : QueryOpts} {p : QueryPlan} :
    plan sql params opts stream = .ok p ↔ ∃ sessions found,
      Asked sql opts stream sessions found ∧ AllAnswered params [] found.params ∧
        params.given.length ≤ positionals found.params ∧
        p = planned sql params opts stream sessions found.params := by
  constructor
  · intro h
    rw [plan] at h
    cases hsessions : sessionsOf opts stream with
    | error e =>
        rw [hsessions] at h
        cases h
    | ok sessions =>
        rw [hsessions] at h
        change (if _ then _ else _) = _ at h
        split at h
        · cases h
        next htimeout =>
        cases hscan : scan sql with
        | error e =>
            rw [hscan] at h
            cases h
        | ok found =>
            rw [hscan] at h
            change (if _ then _ else _) = _ at h
            split at h
            next hreads =>
              obtain ⟨-, -, htokens⟩ := scan_ok_iff.mp hscan
              cases hresolve : resolve sql params stream sessions found.params with
              | error e =>
                  rw [hresolve] at h
                  cases h
              | ok got =>
                  obtain ⟨out, values⟩ := got
                  rw [hresolve] at h
                  rw [htokens] at hresolve
                  obtain ⟨hall, hgiven, rfl, rfl⟩ := resolve_ok_iff.mp hresolve
                  rw [← htokens] at hall hgiven h
                  exact ⟨sessions, found, ⟨hsessions, htimeout, hscan, hreads⟩, hall, hgiven,
                    (Except.ok.inj h).symm⟩
            · cases h
  · rintro ⟨sessions, found, hasked, hall, hgiven, rfl⟩
    obtain ⟨-, -, htokens⟩ := scan_ok_iff.mp hasked.scanned
    rw [htokens] at hall hgiven ⊢
    rw [plan, hasked.sessions]
    show (if _ then _ else _) = _
    rw [if_neg hasked.timeout, hasked.scanned]
    show (if _ then _ else _) = _
    rw [if_pos hasked.reads, htokens, resolve_ok_iff.mpr ⟨hall, hgiven, rfl, rfl⟩]
    rfl

/-- A request is refused as the caller's error. -/
theorem plan_error {sql : Bytes} {opts : QueryOpts} {e : KnlError}
    (h : plan sql params opts stream = .error e) : e.isValidation = true := by
  rw [plan] at h
  cases hsessions : sessionsOf opts stream with
  | error e' =>
      rw [hsessions] at h
      obtain rfl := Except.error.inj h
      rw [sessionsOf] at hsessions
      split at hsessions
      · cases hsessions
      · obtain rfl := Except.error.inj hsessions
        rfl
      · cases hsessions
  | ok sessions =>
      rw [hsessions] at h
      change (if _ then _ else _) = _ at h
      split at h
      · obtain rfl := Except.error.inj h
        rfl
      cases hscan : scan sql with
      | error e' =>
          rw [hscan] at h
          obtain rfl := Except.error.inj h
          exact scan_error hscan
      | ok found =>
          rw [hscan] at h
          change (if _ then _ else _) = _ at h
          split at h
          · cases hresolve : resolve sql params stream sessions found.params with
            | error e' =>
                rw [hresolve] at h
                obtain rfl := Except.error.inj h
                exact resolve_error hresolve
            | ok got =>
                rw [hresolve] at h
                cases h
          · obtain rfl := Except.error.inj h
            rfl

end

end AgentBlock.Knl.Query
