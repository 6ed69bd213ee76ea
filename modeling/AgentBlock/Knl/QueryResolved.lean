/-
AgentBlock/Knl/QueryResolved.lean

Every parameter of a statement becomes question marks, and every question mark has
the value that answers the parameter it came from.

The plan's text is the caller's with each token replaced (`spans` says where the
replacements stand, `marks` which question marks are in one), and its values are
those of the tokens in turn (`bound`), block for block.
-/
import AgentBlock.Knl.QueryWrapped

namespace AgentBlock.Knl.Query

open Lexemes

/-! ### Where the replacements stand -/

/-- The text from `cursor` on without its tokens. -/
def without (sql : Bytes) (cursor : Nat) : List Token → Bytes
  | [] => sql.drop cursor
  | token :: rest => (sql.take token.start).drop cursor ++ without sql token.stop rest

/-- A lexeme that is a parameter. -/
def Lexeme.isParam : Lexeme → Bool
  | .param _ => true
  | _ => false

/-- The lexemes that are no parameters. -/
def others (ls : List (Lexeme × Bytes)) : List (Lexeme × Bytes) := ls.filter fun l => !l.1.isParam

section

variable (sessions : List String)

/-- What stands in place of each token: the text between them, which is at
`cursor` in the caller's text and at `pos` in the other, is as long as it was. -/
def spans (cursor pos : Nat) : List Token → List Token
  | [] => []
  | token :: rest =>
      let start := pos + (token.start - cursor)
      let stop := start + (placeholder sessions token.param).length
      ⟨start, stop, token.param⟩ :: spans token.stop stop rest

/-- The question marks in what stands for a token. -/
def marks (span : Token) : List Token :=
  match span.param with
  | .sessions =>
      (List.range sessions.length).map fun i =>
        ⟨span.start + 1 + 3 * i, span.start + 2 + 3 * i, .positional⟩
  | _ => [⟨span.start, span.stop, .positional⟩]

/-- What stands in place of each parameter among lexemes that begin at `pos`. -/
def spansAt (pos : Nat) : List (Lexeme × Bytes) → List Token
  | [] => []
  | (.param p, _) :: ls =>
      ⟨pos, pos + (placeholder sessions p).length, p⟩ ::
        spansAt (pos + (placeholder sessions p).length) ls
  | (_, own) :: ls => spansAt (pos + own.length) ls

variable {sessions}

theorem spans_tokensAt {ls : List (Lexeme × Bytes)} {cursor pos q : Nat} (h : cursor ≤ pos) :
    spans sessions cursor q (tokensAt pos ls) = spansAt sessions (q + (pos - cursor)) ls := by
  induction ls generalizing cursor pos q with
  | nil => rfl
  | cons l ls ih =>
      obtain ⟨kind, own⟩ := l
      cases kind with
      | param p =>
          rw [tokensAt, spans, spansAt]
          refine congrArg₂ List.cons rfl ?_
          rw [ih (Nat.le_refl _), Nat.sub_self]
          rfl
      | _ =>
          have hstep := @ih cursor (pos + own.length) q (Nat.le_trans h (Nat.le_add_right _ _))
          rw [Nat.sub_add_comm h, ← Nat.add_assoc] at hstep
          exact hstep

/-- The marks of a list of streams, from the first of them on. -/
theorem tokensAt_marks (ids : List String) (pos : Nat) :
    tokensAt pos ([(Lexeme.other, [ascii ',']), (.space, [ascii ' '])].intercalate
        (ids.map fun _ => [mark])) =
      (List.range ids.length).map fun i => ⟨pos + 3 * i, pos + 1 + 3 * i, .positional⟩ := by
  induction ids generalizing pos with
  | nil => rfl
  | cons id ids ih =>
      cases ids with
      | nil => rfl
      | cons id' ids =>
          rw [List.map_cons, List.map_cons, List.intercalate_cons_cons, List.append_assoc,
            List.length_cons, List.range_succ_eq_map, List.map_cons, List.map_map]
          refine congrArg₂ List.cons rfl ?_
          refine (ih (pos + 1 + 1 + 1)).trans (List.map_congr_left fun i _ => ?_)
          show Token.mk _ _ _ = Token.mk _ _ _
          rw [Token.mk.injEq]
          refine ⟨?_, ?_, rfl⟩
          · rw [Nat.mul_succ]
            omega
          · rw [Nat.mul_succ]
            omega

theorem tokensAt_placed (p : Param) (pos : Nat) :
    tokensAt pos (placed sessions p) =
      marks sessions ⟨pos, pos + (placeholder sessions p).length, p⟩ := by
  cases p with
  | sessions =>
      rw [placed, tokensAt_append, tokensAt_append]
      show [] ++ tokensAt (pos + 1) _ ++ [] = _
      rw [tokensAt_marks, List.append_nil]
      rfl
  | _ => rfl

/-- **The scan of the rewritten text finds the question marks that were put into
it.** -/
theorem tokensAt_rewritten (ls : List (Lexeme × Bytes)) (pos : Nat) :
    tokensAt pos (rewritten sessions ls) = (spansAt sessions pos ls).flatMap (marks sessions) := by
  induction ls generalizing pos with
  | nil => rfl
  | cons l ls ih =>
      obtain ⟨kind, own⟩ := l
      cases kind with
      | param p =>
          show tokensAt pos (placed sessions p ++ rewritten sessions ls) = _
          rw [tokensAt_append, tokensAt_placed, text_placed, ih, spansAt, List.flatMap_cons]
      | _ => exact ih (pos + own.length)

/-- Without its parameters a text is its other lexemes. -/
theorem without_tokensAt {sql : Bytes} {ls : List (Lexeme × Bytes)} {pos cursor : Nat}
    (htext : sql.drop pos = text ls) (hcursor : cursor ≤ pos) :
    without sql cursor (tokensAt pos ls) = (sql.take pos).drop cursor ++ text (others ls) := by
  induction ls generalizing pos cursor with
  | nil =>
      rw [List.take_of_length_le (List.drop_eq_nil_iff.mp htext)]
      exact (List.append_nil _).symm
  | cons l ls ih =>
      have hnext : sql.drop (pos + l.2.length) = text ls := by
        rw [← List.drop_drop, htext, text_cons, List.drop_left]
      have hcopy := copy_lexeme htext hcursor
      obtain ⟨kind, own⟩ := l
      cases kind with
      | param p =>
          rw [tokensAt, without, ih hnext (Nat.le_refl _),
            List.drop_of_length_le (List.length_take_le _ _)]
          rfl
      | _ =>
          have hstep := ih hnext (Nat.le_trans hcursor (Nat.le_add_right _ _))
          rw [hcopy, List.append_assoc] at hstep
          exact hstep

/-- And so is the rewritten one, without what stands in their place. -/
theorem without_spansAt {out : Bytes} {ls : List (Lexeme × Bytes)} {pos cursor : Nat}
    (htext : out.drop pos = text (rewritten sessions ls)) (hcursor : cursor ≤ pos) :
    without out cursor (spansAt sessions pos ls) =
      (out.take pos).drop cursor ++ text (others ls) := by
  induction ls generalizing pos cursor with
  | nil =>
      rw [List.take_of_length_le (List.drop_eq_nil_iff.mp htext)]
      exact (List.append_nil _).symm
  | cons l ls ih =>
      have hcut : out.drop pos = text (inPlace sessions l) ++ text (rewritten sessions ls) := by
        rw [htext, ← text_append]
        rfl
      have hnext : out.drop (pos + (text (inPlace sessions l)).length) =
          text (rewritten sessions ls) := by
        rw [← List.drop_drop, hcut, List.drop_left]
      have hcopy := copy_lexeme hcut hcursor
      obtain ⟨kind, own⟩ := l
      cases kind with
      | param p =>
          rw [show inPlace sessions (.param p, own) = placed sessions p from rfl, text_placed]
            at hnext
          rw [spansAt, without, ih hnext (Nat.le_refl _),
            List.drop_of_length_le (List.length_take_le _ _)]
          rfl
      | _ =>
          rw [inPlace_of_ne sessions (by nofun), text_cons, text_nil, List.append_nil]
            at hnext hcopy
          have hstep := ih hnext (Nat.le_trans hcursor (Nat.le_add_right _ _))
          rw [hcopy, List.append_assoc] at hstep
          exact hstep

end

/-! ### Block for block -/

section

variable {α β : Type*}

/-- A place in a list of blocks laid end to end is a place in one of them. -/
theorem exists_block {L : List (List α)} {k : Nat} (h : k < L.flatten.length) :
    ∃ j block i, L[j]? = some block ∧ i < block.length ∧ k = (L.take j).flatten.length + i := by
  induction L generalizing k with
  | nil => cases h
  | cons block L ih =>
      by_cases hk : k < block.length
      · exact ⟨0, block, k, rfl, hk, (Nat.zero_add k).symm⟩
      · rw [List.flatten_cons, List.length_append] at h
        obtain ⟨j, b, i, hb, hi, hki⟩ := @ih (k - block.length) (by omega)
        refine ⟨j + 1, b, i, hb, hi, ?_⟩
        rw [List.take_succ_cons, List.flatten_cons, List.length_append]
        omega

theorem getElem?_block {L : List (List α)} {j : Nat} {block : List α} (h : L[j]? = some block)
    {i : Nat} (hi : i < block.length) :
    L.flatten[(L.take j).flatten.length + i]? = block[i]? := by
  induction L generalizing j with
  | nil => cases h
  | cons b L ih =>
      cases j with
      | zero =>
          obtain rfl := Option.some.inj h
          rw [List.take_zero, List.flatten_nil, List.length_nil, Nat.zero_add, List.flatten_cons,
            List.getElem?_append_left hi]
      | succ j =>
          rw [List.take_succ_cons, List.flatten_cons, List.flatten_cons, List.length_append,
            List.getElem?_append_right (by omega), Nat.add_assoc, Nat.add_sub_cancel_left]
          exact ih h

theorem length_take_flatten {L : List (List α)} {M : List (List β)}
    (h : L.map List.length = M.map List.length) (j : Nat) :
    (L.take j).flatten.length = (M.take j).flatten.length := by
  rw [List.length_flatten, List.length_flatten, List.map_take, List.map_take, h]

end

section

variable {params : QueryParams} {stream : String} {sessions : List String}

theorem getElem?_bound (before tokens : List Token) (j : Nat) :
    (bound params stream sessions before tokens)[j]? =
      tokens[j]?.map (valuesOf params stream sessions (before ++ tokens.take j)) := by
  induction tokens generalizing before j with
  | nil => rfl
  | cons token rest ih =>
      cases j with
      | zero => rw [List.take_zero, List.append_nil]; rfl
      | succ j =>
          rw [bound, List.getElem?_cons_succ, ih, List.append_assoc]
          rfl

theorem length_bound (before tokens : List Token) :
    (bound params stream sessions before tokens).length = tokens.length := by
  induction tokens generalizing before with
  | nil => rfl
  | cons token rest ih => exact congrArg Nat.succ (ih _)

theorem length_marks (span : Token) :
    (marks sessions span).length = if span.param = .sessions then sessions.length else 1 := by
  obtain ⟨start, stop, param⟩ := span
  cases param with
  | sessions => simp [marks]
  | _ => rfl

/-- An answered parameter binds as many values as question marks stand for it. -/
theorem length_valuesOf {before : List Token} {token : Token} (h : Answered params before token) :
    (valuesOf params stream sessions before token).length =
      if token.param = .sessions then sessions.length else 1 := by
  obtain ⟨start, stop, param⟩ := token
  have hone : ∀ v, callers params before ⟨start, stop, param⟩ = some v →
      (callers params before ⟨start, stop, param⟩).toList.length = 1 := fun v hv => by
    rw [hv]
    rfl
  cases param with
  | stream => rfl
  | sessions => simp [valuesOf]
  | _ =>
      obtain ⟨v, hv, -⟩ := (answered_iff rfl).mp h
      exact hone v hv

theorem spans_params (sessions : List String) (cursor pos : Nat) (tokens : List Token) :
    (spans sessions cursor pos tokens).map Token.param = tokens.map Token.param := by
  induction tokens generalizing cursor pos with
  | nil => rfl
  | cons token rest ih => exact congrArg (token.param :: ·) (ih _ _)

theorem getElem?_spans (sessions : List String) (cursor pos : Nat) {tokens : List Token} {j : Nat}
    {token : Token} (h : tokens[j]? = some token) :
    ∃ span, (spans sessions cursor pos tokens)[j]? = some span := by
  have hparams := congrArg (·[j]?) (spans_params sessions cursor pos tokens)
  rw [List.getElem?_map, List.getElem?_map, h] at hparams
  obtain ⟨span, hspan, -⟩ := Option.map_eq_some_iff.mp hparams
  exact ⟨span, hspan⟩

/-- **The values and the question marks are as many for every parameter.** -/
theorem length_blocks {before tokens : List Token} {cursor pos : Nat}
    (h : AllAnswered params before tokens) :
    (bound params stream sessions before tokens).map List.length =
      ((spans sessions cursor pos tokens).map (marks sessions)).map List.length := by
  induction tokens generalizing before cursor pos with
  | nil => rfl
  | cons token rest ih =>
      refine congrArg₂ List.cons ?_ (ih h.2)
      rw [length_valuesOf h.1, length_marks]

/-! ### The rewritten text is scanned again -/

theorem oneStatement_append {xs ms : List (Lexeme × Bytes)} (h : ∀ l ∈ xs, l.1 ≠ .semicolon) :
    oneStatement false (xs ++ ms) = oneStatement false ms := by
  induction xs with
  | nil => rfl
  | cons x xs ih =>
      obtain ⟨hx, hxs⟩ := List.forall_mem_cons.mp h
      rw [List.cons_append, oneStatement, decide_eq_false hx, ih hxs]
      exact ite_self _

theorem oneStatement_rewritten (ended : Bool) (ls : List (Lexeme × Bytes)) :
    oneStatement ended (rewritten sessions ls) = oneStatement ended ls := by
  induction ls generalizing ended with
  | nil => rfl
  | cons l ls ih =>
      obtain ⟨kind, own⟩ := l
      cases kind with
      | param p =>
          show oneStatement ended (placed sessions p ++ rewritten sessions ls) =
            (!ended && oneStatement false ls)
          cases ended with
          | false => exact (oneStatement_append fun l hl => (placed_kinds hl).1).trans (ih false)
          | true =>
              -- the first lexeme of a replacement is neither a space nor a comment
              cases p <;> rfl
      | _ =>
          show oneStatement ended (_ :: rewritten sessions ls) = _
          rw [oneStatement, oneStatement, ih, ih]

theorem firstWord_append {xs ms : List (Lexeme × Bytes)} (h : ∀ l ∈ xs, l.1 ≠ .word) :
    firstWord (xs ++ ms) = firstWord ms := by
  induction xs with
  | nil => rfl
  | cons x xs ih =>
      obtain ⟨hx, hxs⟩ := List.forall_mem_cons.mp h
      rw [List.cons_append, firstWord_cons, ih hxs]
      obtain ⟨kind, own⟩ := x
      cases kind with
      | word => exact absurd rfl hx
      | _ => rfl

theorem firstWord_rewritten (ls : List (Lexeme × Bytes)) :
    firstWord (rewritten sessions ls) = firstWord ls := by
  induction ls with
  | nil => rfl
  | cons l ls ih =>
      obtain ⟨kind, own⟩ := l
      cases kind with
      | param p => exact (firstWord_append fun l hl => (placed_kinds hl).2.2).trans ih
      | word => rfl
      | _ => exact ih

end

/-! ### What a plan is of its request -/

section

variable {sql : Bytes} {params : QueryParams} {opts : QueryOpts} {stream : String} {p : QueryPlan}

/-- The `k`-th question mark of the plan's text stands in what replaces a
parameter of the caller's, and the `k`-th value is one of those that answer it. -/
def Resolves (params : QueryParams) (stream : String) (p : QueryPlan) (source again : Scanned)
    (k : Nat) : Prop :=
  ∃ (j i : Nat) (token span m : Token) (v : Json),
    source.params[j]? = some token ∧
    (spans p.sessions 0 0 source.params)[j]? = some span ∧
    (marks p.sessions span)[i]? = some m ∧ again.params[k]? = some m ∧
    (valuesOf params stream p.sessions (source.params.take j) token)[i]? = some v ∧
    p.values[k]? = some v

/-- Values given in the same shape, each of them one SQLite has. -/
structure SameShape (params params' : QueryParams) : Prop where
  count : params'.given.length = params.given.length
  names : ∀ name, (params'.value (.key name)).isSome = (params.value (.key name)).isSome
  scalars : ∀ r v, params'.value r = some v → isScalar v = true

theorem SameShape.value {params params' : QueryParams} (h : SameShape params params') (r : Ref) :
    (params'.value r).isSome = (params.value r).isSome := by
  cases r with
  | key name => exact h.names name
  | nth i =>
      show (params'.given[i]?).isSome = (params.given[i]?).isSome
      rw [Bool.eq_iff_iff, Option.isSome_iff_ne_none, Option.isSome_iff_ne_none, Ne, Ne,
        List.getElem?_eq_none_iff, List.getElem?_eq_none_iff, h.count]

theorem SameShape.refOf {params params' : QueryParams} (h : SameShape params params')
    (before : List Token) (token : Token) :
    refOf params' before token = refOf params before token := by
  have hname : ∀ name, params'.nameFor name = params.nameFor name := fun name => by
    rw [QueryParams.nameFor, QueryParams.nameFor]
    refine congrArg (List.find? · _) (funext fun key => ?_)
    exact h.names key
  obtain ⟨start, stop, param⟩ := token
  cases param with
  | named name => exact congrArg (Option.map Ref.key) (hname name)
  | _ => rfl

/-- What is answered by values is answered by others of the same shape. -/
theorem SameShape.answered {params params' : QueryParams} (h : SameShape params params')
    {before : List Token} {token : Token} (ha : Answered params before token) :
    Answered params' before token := by
  refine ha.imp id ?_
  rintro ⟨v, hv, -⟩
  obtain ⟨r, hr, hv⟩ := Option.bind_eq_some_iff.mp hv
  have hsome : (params'.value r).isSome = true := by rw [h.value, hv]; rfl
  obtain ⟨v', hv'⟩ := Option.isSome_iff_exists.mp hsome
  refine ⟨v', Option.bind_eq_some_iff.mpr ⟨r, ?_, hv'⟩, h.scalars r v' hv'⟩
  rw [h.refOf, hr]

theorem SameShape.allAnswered {params params' : QueryParams} (h : SameShape params params')
    {before tokens : List Token} (ha : AllAnswered params before tokens) :
    AllAnswered params' before tokens := by
  induction tokens generalizing before with
  | nil => trivial
  | cons token rest ih => exact ⟨h.answered ha.1, ih ha.2⟩

/-- The text a parameter is replaced by is a matter of how many streams there
are. -/
theorem rewritten_congr {sessions sessions' : List String}
    (h : sessions'.length = sessions.length) (ls : List (Lexeme × Bytes)) :
    rewritten sessions' ls = rewritten sessions ls := by
  have hmap : sessions'.map (fun _ => [mark]) = sessions.map fun _ => [mark] := by
    rw [List.map_const', List.map_const', h]
  refine congrArg (List.flatMap · ls) (funext fun l => ?_)
  obtain ⟨kind, own⟩ := l
  cases kind with
  | param q =>
      show placed sessions' q = placed sessions q
      cases q with
      | sessions => rw [placed, placed, hmap]
      | _ => rfl
  | _ => rfl

theorem rewritten_of_no_tokens {sessions : List String} {ls : List (Lexeme × Bytes)} (pos : Nat)
    (h : tokensAt pos ls = []) : rewritten sessions ls = ls := by
  induction ls generalizing pos with
  | nil => rfl
  | cons l ls ih =>
      obtain ⟨kind, own⟩ := l
      cases kind with
      | param q => cases h
      | _ => exact congrArg (_ :: ·) (ih (pos + own.length) h)

theorem without_congr {out : Bytes} {cursor : Nat} {tokens tokens' : List Token}
    (h : tokens.map (fun t => (t.start, t.stop)) = tokens'.map fun t => (t.start, t.stop)) :
    without out cursor tokens = without out cursor tokens' := by
  induction tokens generalizing cursor tokens' with
  | nil =>
      cases tokens' with
      | nil => rfl
      | cons _ _ => cases h
  | cons t rest ih =>
      cases tokens' with
      | nil => cases h
      | cons t' rest' =>
          obtain ⟨hhead, hrest⟩ := List.cons.inj h
          obtain ⟨hstart, hstop⟩ := Prod.mk.inj hhead
          rw [without, without, hstart, hstop, ih hrest]

theorem spans_flatMap_marks {sessions : List String} {tokens : List Token}
    (h : ∀ t ∈ tokens, t.param ≠ .sessions) :
    (tokens.flatMap (marks sessions)).map (fun t => (t.start, t.stop)) =
      tokens.map fun t => (t.start, t.stop) := by
  induction tokens with
  | nil => rfl
  | cons t rest ih =>
      obtain ⟨ht, hrest⟩ := List.forall_mem_cons.mp h
      rw [List.flatMap_cons, List.map_append, ih hrest]
      obtain ⟨start, stop, param⟩ := t
      cases param with
      | sessions => exact absurd rfl ht
      | _ => rfl

theorem marks_positional {sessions : List String} {span t : Token} (h : t ∈ marks sessions span) :
    t.param = .positional := by
  rw [marks] at h
  split at h
  · obtain ⟨i, -, rfl⟩ := List.mem_map.mp h
    rfl
  · obtain rfl := List.mem_singleton.mp h
    rfl

/-- **Resolution is exact and free of the values.**  There is a question mark for
each value, where the parameter stood that the value answers, and the rest of the
text is the caller's.  Values of the same shape, and as many sessions, give the
same text: nothing that is bound is ever read as a part of the statement. -/
theorem plan_resolved (h : plan sql params opts stream = .ok p) :
    ∃ source again, scan sql = .ok source ∧ scan p.sql = .ok again ∧
      -- only question marks are left, as many as there are values
      (∀ t ∈ again.params, t.param = .positional) ∧ again.params.length = p.values.length ∧
      -- each where the parameter stood that its value answers
      (∀ k < p.values.length, Resolves params stream p source again k) ∧
      -- the rest of the text is what it was
      without p.sql 0 (spans p.sessions 0 0 source.params) = without sql 0 source.params ∧
      ((∀ t ∈ source.params, t.param ≠ .sessions) →
        without p.sql 0 again.params = without sql 0 source.params) ∧
      (source.params = [] → p.sql = sql) ∧
      -- and no value, stream or session is in it
      ∀ params' opts' stream' sessions', SameShape params params' →
        sessionsOf opts' stream' = .ok sessions' → sessions'.length = p.sessions.length →
        opts'.timeoutMs ≠ 0 →
          ∃ p', plan sql params' opts' stream' = .ok p' ∧ p'.sql = p.sql := by
  obtain ⟨sessions, source, hasked, hall, hgiven, rfl⟩ := plan_ok_iff.mp h
  obtain ⟨hone, hword, htokens⟩ := scan_ok_iff.mp hasked.scanned
  have hsql : (planned sql params opts stream sessions source.params).sql =
      text (rewritten sessions (lexemes next sql)) := rfl
  have hspans : spans sessions 0 0 source.params = spansAt sessions 0 (lexemes next sql) := by
    rw [htokens, spans_tokensAt (Nat.le_refl 0)]
  -- what the second scan finds
  have hmarks : tokensAt 0 (rewritten sessions (lexemes next sql)) =
      ((spans sessions 0 0 source.params).map (marks sessions)).flatten := by
    rw [hspans, tokensAt_rewritten, List.flatMap_def]
  have hagain : scan (text (rewritten sessions (lexemes next sql))) =
      .ok ⟨source.keyword, ((spans sessions 0 0 source.params).map (marks sessions)).flatten⟩ := by
    rw [scan_ok_iff, lexemes_rewritten, oneStatement_rewritten, firstWord_rewritten]
    exact ⟨hone, hword, hmarks.symm⟩
  have hblocks : (bound params stream sessions [] source.params).map List.length =
      ((spans sessions 0 0 source.params).map (marks sessions)).map List.length :=
    length_blocks hall
  have hwithout : without (text (rewritten sessions (lexemes next sql))) 0
      (spans sessions 0 0 source.params) = without sql 0 source.params := by
    have hdrop : (text (rewritten sessions (lexemes next sql))).drop 0 =
        text (rewritten sessions (lexemes next sql)) := rfl
    have htext : sql.drop 0 = text (lexemes next sql) := (text_lexemes next sql).symm
    rw [hspans, htokens, without_spansAt hdrop (Nat.le_refl 0), without_tokensAt htext (Nat.le_refl 0)]
    rfl
  refine ⟨source, _, hasked.scanned, hagain, fun t ht => ?_, ?_, fun k hk => ?_, hwithout,
    fun hnone => ?_, fun hnil => ?_, fun params' opts' stream' sessions' hshape hsessions hlen hpos => ?_⟩
  · obtain ⟨block, hblock, ht⟩ := List.mem_flatten.mp ht
    obtain ⟨span, -, rfl⟩ := List.mem_map.mp hblock
    exact marks_positional ht
  · show _ = (bound params stream sessions [] source.params).flatten.length
    rw [List.length_flatten, List.length_flatten, hblocks]
  · obtain ⟨j, block, i, hj, hi, rfl⟩ :=
      exists_block (L := bound params stream sessions [] source.params) hk
    have hvalues := hj
    rw [getElem?_bound, List.nil_append, Option.map_eq_some_iff] at hvalues
    obtain ⟨token, htoken, rfl⟩ := hvalues
    obtain ⟨span, hspan⟩ := getElem?_spans sessions 0 0 htoken
    have hmark : ((spans sessions 0 0 source.params).map (marks sessions))[j]? =
        some (marks sessions span) := by
      rw [List.getElem?_map, hspan]
      rfl
    have him : i < (marks sessions span).length := by
      have hlen := congrArg (·[j]?) hblocks
      rw [List.getElem?_map, List.getElem?_map, hj, hmark] at hlen
      exact Option.some.inj hlen ▸ hi
    refine ⟨j, i, token, span, (marks sessions span)[i], _, htoken, hspan,
      List.getElem?_eq_getElem him, ?_, List.getElem?_eq_getElem hi, ?_⟩
    · rw [length_take_flatten hblocks, getElem?_block hmark him, List.getElem?_eq_getElem him]
    · exact (getElem?_block hj hi).trans (List.getElem?_eq_getElem hi)
  · rw [← hwithout]
    refine without_congr ?_
    rw [← List.flatMap_def]
    refine spans_flatMap_marks fun t ht hsessions => ?_
    have hmem : Param.sessions ∈ source.params.map Token.param := by
      rw [← spans_params sessions 0 0, ← hsessions]
      exact List.mem_map_of_mem ht
    obtain ⟨t', ht', hparam⟩ := List.mem_map.mp hmem
    exact hnone t' ht' hparam
  · rw [hsql, rewritten_of_no_tokens 0 (htokens ▸ hnil), text_lexemes]
  · refine ⟨_, plan_ok_iff.mpr ⟨sessions', source, ⟨hsessions, hpos, hasked.scanned, hasked.reads⟩,
      hshape.allAnswered hall, ?_, rfl⟩, congrArg text (rewritten_congr hlen _)⟩
    rw [hshape.count]
    exact hgiven

end

/-- The brackets of a list of streams are not of a question mark. -/
theorem sessions_brackets_stay :
    ∃ p source again, plan (lit "SELECT $sessions") .none {} "s-1" = .ok p ∧
      scan (lit "SELECT $sessions") = .ok source ∧ scan p.sql = .ok again ∧
      without p.sql 0 again.params ≠ without (lit "SELECT $sessions") 0 source.params :=
  ⟨_, _, _, rfl, rfl, rfl, by decide⟩

theorem plan_resolved_names :
    ∃ (p : QueryPlan) (source again : Scanned),
      plan (lit "SELECT ? IN $sessions") (.positional [.str "s-2"]) {} "s-1" = .ok p ∧
        scan (lit "SELECT ? IN $sessions") = .ok source ∧ scan p.sql = .ok again ∧
        again.params.length = p.values.length := by
  have h : plan (lit "SELECT ? IN $sessions") (.positional [.str "s-2"]) {} "s-1" = .ok _ := rfl
  obtain ⟨source, again, hsource, hagain, -, hcount, -⟩ := plan_resolved h
  exact ⟨_, source, again, h, hsource, hagain, hcount⟩

/-! ### Every value is used -/

section

variable {sql : Bytes} {params : QueryParams} {opts : QueryOpts} {stream : String}

/-- A token of the statement is answered by the value under `name`. -/
def AskedFor (params : QueryParams) (tokens : List Token) (name : String) : Prop :=
  ∃ j token, tokens[j]? = some token ∧ refOf params (tokens.take j) token = some (.key name)

/-- A parameter that nobody answers, and a value that nobody asks for, are both
errors. -/
structure Contract (sql : Bytes) (params : QueryParams) (opts : QueryOpts) (stream : String) :
    Prop where
  answered : ∀ p, plan sql params opts stream = .ok p → ∃ source, ∃ blocks : List (List Json),
    scan sql = .ok source ∧ p.values = blocks.flatten ∧ blocks.length = source.params.length ∧
    -- every value is bound to a token
    (∀ r v, params.value r = some v → ∃ j token, source.params[j]? = some token ∧
      refOf params (source.params.take j) token = some r ∧ blocks[j]? = some [v]) ∧
    -- and every token that is not the kernel's to a value
    ∀ j token, source.params[j]? = some token → token.param.isReserved = true ∨
      ∃ r v, refOf params (source.params.take j) token = some r ∧ params.value r = some v ∧
        blocks[j]? = some [v]
  refused : ∀ source, scan sql = .ok source →
    positionals source.params < params.given.length ∨
      (∃ (j : Nat) (token : Token), source.params[j]? = some token ∧ token.param.isReserved = false ∧
        callers params (source.params.take j) token = none) ∨
      (∃ name v, params.value (.key name) = some v ∧ ¬ AskedFor params source.params name) →
    ∃ why, plan sql params opts stream = .error (.validation why)

theorem positionals_cons (t : Token) (rest : List Token) :
    positionals (t :: rest) = positionals rest + if t.param = .positional then 1 else 0 := by
  simp [positionals, List.countP_cons]

theorem exists_positional {tokens : List Token} {i : Nat} (h : i < positionals tokens) :
    ∃ (j : Nat) (token : Token), tokens[j]? = some token ∧ token.param = .positional ∧
      positionals (tokens.take j) = i := by
  induction tokens generalizing i with
  | nil => cases h
  | cons t rest ih =>
      rw [positionals_cons] at h
      by_cases ht : t.param = .positional
      · rw [if_pos ht] at h
        cases i with
        | zero => exact ⟨0, t, rfl, ht, rfl⟩
        | succ i =>
            obtain ⟨j, token, hj, htoken, hcount⟩ := ih (Nat.lt_of_succ_lt_succ h)
            refine ⟨j + 1, token, hj, htoken, ?_⟩
            rw [List.take_succ_cons, positionals_cons, if_pos ht, hcount]
      · rw [if_neg ht, Nat.add_zero] at h
        obtain ⟨j, token, hj, htoken, hcount⟩ := ih h
        refine ⟨j + 1, token, hj, htoken, ?_⟩
        rw [List.take_succ_cons, positionals_cons, if_neg ht, hcount, Nat.add_zero]

/-- The block of a parameter of the caller's is its one value. -/
theorem getElem?_bound_of_ref {sessions : List String} {tokens : List Token} {j : Nat}
    {token : Token} {r : Ref} {v : Json} (hj : tokens[j]? = some token)
    (hr : refOf params (tokens.take j) token = some r) (hv : params.value r = some v) :
    (bound params stream sessions [] tokens)[j]? = some [v] := by
  have hcallers : callers params (tokens.take j) token = some v :=
    Option.bind_eq_some_iff.mpr ⟨r, hr, hv⟩
  rw [getElem?_bound, hj, List.nil_append]
  refine congrArg some ?_
  obtain ⟨start, stop, param⟩ := token
  cases param with
  | stream => cases hr
  | sessions => cases hr
  | _ =>
      rw [valuesOf, hcallers]
      rfl

/-- **Every value is used, unless a request that is in order otherwise has a name
that no token asks for.**  Values that are left over of a list are counted and
refused; names are looked up from the tokens, so one that no token has is not
missed. -/
theorem every_value_used_iff :
    Contract sql params opts stream ↔
      ∀ sessions source, Asked sql opts stream sessions source →
        AllAnswered params [] source.params →
        params.given.length ≤ positionals source.params →
          ∀ name v, params.value (.key name) = some v → AskedFor params source.params name := by
  constructor
  · intro hc sessions source hasked hall hgiven name v hv
    by_contra hnot
    obtain ⟨why, hwhy⟩ := hc.refused source hasked.scanned (Or.inr (Or.inr ⟨name, v, hv, hnot⟩))
    have hok := plan_ok_iff.mpr ⟨sessions, source, hasked, hall, hgiven, rfl⟩
    rw [hwhy] at hok
    cases hok
  · intro hused
    constructor
    · intro p hp
      obtain ⟨sessions, source, hasked, hall, hgiven, rfl⟩ := plan_ok_iff.mp hp
      refine ⟨source, bound params stream sessions [] source.params, hasked.scanned, rfl, ?_,
        fun r v hv => ?_, fun j token hj => ?_⟩
      · exact length_bound _ _
      · have htoken : ∃ j token, source.params[j]? = some token ∧
            refOf params (source.params.take j) token = some r := by
          cases r with
          | key name => exact hused sessions source hasked hall hgiven name v hv
          | nth i =>
              have hi : i < params.given.length := (List.getElem?_eq_some_iff.mp hv).1
              -- there are no more values than question marks, so each value has its own
              obtain ⟨j, token, hj, hparam, rfl⟩ := exists_positional (Nat.lt_of_lt_of_le hi hgiven)
              refine ⟨j, token, hj, ?_⟩
              rw [refOf, hparam]
        obtain ⟨j, token, hj, hr⟩ := htoken
        exact ⟨j, token, hj, hr, getElem?_bound_of_ref hj hr hv⟩
      · refine (allAnswered_get hall hj).imp id ?_
        rintro ⟨v, hv, -⟩
        obtain ⟨r, hr, hv⟩ := Option.bind_eq_some_iff.mp hv
        exact ⟨r, v, hr, hv, getElem?_bound_of_ref hj hr hv⟩
    · intro source hsource hbad
      cases hp : plan sql params opts stream with
      | error e =>
          obtain ⟨why, rfl⟩ := KnlError.eq_validation (plan_error hp)
          exact ⟨why, rfl⟩
      | ok p =>
          obtain ⟨sessions, source', hasked, hall, hgiven, -⟩ := plan_ok_iff.mp hp
          obtain rfl := Except.ok.inj (hsource.symm.trans hasked.scanned)
          rcases hbad with hmany | ⟨j, token, hj, hnot, hnone⟩ | ⟨name, v, hv, hnot⟩
          · exact absurd hmany (Nat.not_lt.mpr hgiven)
          · obtain ⟨v, hv, -⟩ := (answered_iff hnot).mp (allAnswered_get hall hj)
            cases hnone.symm.trans hv
          · exact absurd (hused sessions source hasked hall hgiven name v hv) hnot

/-- A name that the statement does not have is let pass. -/
theorem unasked_name_accepted :
    ¬ Contract (lit "SELECT 1") (.named [("kind", .str "note")]) {} "s-1" := by
  have hscan : scan (lit "SELECT 1") = .ok ⟨lit "SELECT", []⟩ := rfl
  have hplan : plan (lit "SELECT 1") (.named [("kind", .str "note")]) {} "s-1" = .ok _ := rfl
  have hnot : ¬ AskedFor (.named [("kind", .str "note")]) [] "kind" := by
    rintro ⟨j, token, hj, -⟩
    cases hj
  intro hc
  obtain ⟨why, hwhy⟩ := hc.refused _ hscan (Or.inr (Or.inr ⟨"kind", _, rfl, hnot⟩))
  rw [hplan] at hwhy
  cases hwhy

end

end AgentBlock.Knl.Query
