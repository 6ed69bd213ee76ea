/-
AgentBlock/FsTools/Pages.lean

Reading a file in pages.

A call asks for lines of the file, and its pages are the results of the first
`k` of them; the one it answers is to be the largest the budget and the limit
let through.  What is measured is a page that the budget cut.  A page of all the
lines asked for says less than that, so that it may be cut by its last line, or
refused, though it would have fitted (`Squeezed`); and where the budget is a
fraction it raises instead of refusing (`Unwritable`).

Main results:

* `read_valid` — what a call answers;
* `readsPage_iff` — when it answers as it should;
* `readsInPages_iff` — and when reading a file page by page does.
-/
import AgentBlock.FsTools.Rendered
import AgentBlock.Bridge.FsLines
import Mathlib.Data.List.Infix

namespace AgentBlock.FsTools

open Bridge.Fs

variable {versionOf : Text → Text} {encode : ReadResult → Text} {content : Text} {k : ℕ}

/-! ### The lines of a range -/

section Range

variable {first last : ℕ}

theorem filter_zipIdx {α : Type*} (xs : List α) (k : ℕ) :
    ((xs.zipIdx k).filter fun r => first ≤ r.2 + 1 ∧ r.2 + 1 ≤ last).map Prod.fst =
      (xs.take (last - k)).drop (first - 1 - k) := by
  induction xs generalizing k with
  | nil => simp
  | cons x xs ih =>
      rw [List.zipIdx_cons]
      by_cases hin : first ≤ k + 1 ∧ k + 1 ≤ last
      · have htake : last - k = (last - (k + 1)) + 1 := by omega
        have hdrop : first - 1 - k = 0 := by omega
        have hdrop' : first - 1 - (k + 1) = 0 := by omega
        rw [List.filter_cons_of_pos (by simpa using hin), List.map_cons, ih, htake, hdrop, hdrop',
          List.take_succ_cons, List.drop_zero, List.drop_zero]
      · rw [List.filter_cons_of_neg (by simpa using hin), ih]
        by_cases hbefore : k + 1 < first
        · have hdrop : first - 1 - k = (first - 1 - (k + 1)) + 1 := by omega
          rcases Nat.eq_zero_or_pos (last - k) with hzero | hpos
          · rw [hzero, show last - (k + 1) = 0 by omega]
            simp
          · rw [hdrop, show last - k = (last - (k + 1)) + 1 by omega, List.take_succ_cons,
              List.drop_succ_cons]
        · rw [show last - k = 0 by omega, show last - (k + 1) = 0 by omega]
          simp

/-- The pattern and the editor number the lines alike. -/
theorem rangeOf_eq (content : Text) (hlast : last ≤ (splitLines content).1.length) :
    rangeOf content first last = ((splitLines content).1.take last).drop (first - 1) := by
  rw [rangeOf, filter_zipIdx _ 0, Nat.sub_zero, Nat.sub_zero]
  rcases newline_cases content with ⟨body, rfl⟩ | h
  · rw [splitLines_newline] at hlast ⊢
    rw [List.splitOn_append_cons_self, List.take_append_of_le_length hlast]
  · rw [splitLines_of_last h]

end Range

/-! ### The most lines that fit -/

/-- Nothing larger fits than what is found, where more lines cost more. -/
theorem fitLines_spec {lines : ℕ} {cost : ℕ → ℚ} (budget : ℚ)
    (hmono : ∀ j k, 1 ≤ j → j ≤ k → k ≤ lines → cost j ≤ cost k) :
    fitLines lines budget cost ≤ lines ∧
      (0 < fitLines lines budget cost → cost (fitLines lines budget cost) ≤ budget) ∧
      (fitLines lines budget cost < lines → budget < cost (fitLines lines budget cost + 1)) := by
  unfold fitLines
  split
  next hall =>
    refine ⟨Nat.le_refl _, fun hpos => hall.resolve_left hpos.ne', fun h => absurd h ?_⟩
    exact Nat.lt_irrefl _
  next hall =>
    rw [not_or, not_le] at hall
    cases hfound : bisect (ε := Empty) Except.ok (fun k => decide (cost k ≤ budget)) 1 (lines + 1)
        none with
    | error e => exact e.elim
    | ok best =>
        cases best with
        | none =>
            obtain ⟨-, hfirst⟩ := bisect_none hfound
            obtain ⟨b, hb, hcost⟩ := hfirst (by omega)
            cases hb
            exact ⟨Nat.zero_le _, fun h => absurd h (Nat.lt_irrefl 0), fun _ =>
              not_le.mp (of_decide_eq_false hcost)⟩
        | some k =>
            -- what fits is closed downwards, which is what the search needs
            have hclosed : ∀ i j c d, 1 ≤ i → i ≤ j → j < lines + 1 →
                (Except.ok i : Except Empty ℕ) = .ok c → (Except.ok j : Except Empty ℕ) = .ok d →
                decide (cost d ≤ budget) = true → decide (cost c ≤ budget) = true := by
              intro i j c d hi hij hj hc hd hfits
              cases hc
              cases hd
              have hle := of_decide_eq_true hfits
              exact decide_eq_true ((hmono i j hi hij (Nat.le_of_lt_succ hj)).trans hle)
            rcases bisect_largest hclosed hfound with ⟨h, -⟩ | ⟨j, hj, hjlt, hprobe, hcost, hmax⟩
            · cases h
            · cases hprobe
              refine ⟨Nat.le_of_lt_succ hjlt, fun _ => of_decide_eq_true hcost, fun hlt => ?_⟩
              have hnext := hmax (k + 1) (k + 1) (Nat.lt_succ_self k) (Nat.succ_lt_succ hlt) rfl
              exact not_le.mp (of_decide_eq_false hnext)

/-! ### A call and its pages -/

structure Call where
  ctx : Ctx
  input : ReadInput

/-- How many lines the file has. -/
def total (content : Text) : ℕ := (splitLines content).1.length

/-- The call names a range of lines that begins in the file. -/
def Call.Valid (c : Call) (content : Text) : Prop :=
  1 ≤ c.input.startLine.getD 1 ∧
    c.input.startLine.getD 1 ≤ c.input.endLine.getD (total content) ∧
    c.input.startLine.getD 1 ≤ total content

def Call.first (c : Call) : ℕ := (c.input.startLine.getD 1).toNat

/-- The last line asked for, of those there are. -/
def Call.last (c : Call) (content : Text) : ℕ :=
  min (c.input.endLine.getD (total content)).toNat (total content)

/-- How many of `n` lines a limit leaves. -/
def mostOf (limit : Option ℕ) (n : ℕ) : ℕ :=
  match limit with
  | some limit => min limit n
  | none => n

theorem limited_eq (limit : Option ℕ) (out : List Text) :
    limited limit out = (out.take (mostOf limit out.length),
      if mostOf limit out.length < out.length then some .limit else none) := by
  cases limit with
  | none =>
      show (out, none) = (out.take out.length, if out.length < out.length then _ else none)
      rw [List.take_length, if_neg (Nat.lt_irrefl _)]
  | some limit =>
      show (if out.length > limit then _ else _) =
        (out.take (min limit out.length), if min limit out.length < out.length then _ else _)
      by_cases hcut : out.length > limit
      · rw [if_pos hcut, Nat.min_eq_left hcut.le, if_pos hcut]
      · rw [if_neg hcut, Nat.min_eq_right (Nat.not_lt.mp hcut), List.take_length,
          if_neg (Nat.lt_irrefl _)]

/-- How many lines the call may answer: those asked for, as far as its limit
goes. -/
def Call.most (c : Call) (content : Text) : ℕ :=
  mostOf (limitOf c.input) (c.last content - (c.first - 1))

/-- What cuts a page of all of them. -/
def Call.preCut (c : Call) (content : Text) : Option CutBy :=
  if c.most content < c.last content - (c.first - 1) then some .limit else none

section Pages

variable (versionOf)

/-- The page of the first `k` lines asked for, cut by this. -/
def Call.pageCut (c : Call) (content : Text) (k : ℕ) (cut : Option CutBy) : ReadResult where
  content := linesAt (splitLines content).1 c.first (c.first + k - 1)
  version := versionOf content
  startLine := c.first
  endLine := c.first + k - 1
  total := total content
  cutBy := cut

/-- The page of the first `k` lines as the call would answer it. -/
def Call.page (c : Call) (content : Text) (k : ℕ) : ReadResult :=
  c.pageCut versionOf content k
    (if k < c.most content then (budgetOf c.ctx c.input).map Prod.snd else c.preCut content)

end Pages

theorem Call.Valid.bounds {c : Call} (h : c.Valid content) :
    1 ≤ c.first ∧ c.first ≤ c.last content ∧ c.last content ≤ total content ∧
      1 ≤ c.most content ∧ c.first + c.most content - 1 ≤ c.last content := by
  obtain ⟨hpos, hle, hin⟩ := h
  have hfirst : 1 ≤ c.first := by
    rw [Call.first]
    omega
  have hlast : c.first ≤ c.last content := by
    rw [Call.first, Call.last]
    omega
  have htotal : c.last content ≤ total content := Nat.min_le_right _ _
  refine ⟨hfirst, hlast, htotal, ?_⟩
  unfold Call.most mostOf
  cases hlimit : limitOf c.input with
  | none =>
      dsimp only
      omega
  | some limit =>
      have hlimit' : 1 ≤ limit := by
        unfold limitOf at hlimit
        obtain ⟨floor, -, hfloor⟩ := Option.bind_eq_some_iff.mp hlimit
        split at hfloor
        · have := Option.some.inj hfloor
          omega
        · cases hfloor
      dsimp only
      omega

/-- The lines a call may answer. -/
def Call.wanted (c : Call) (content : Text) : List Text :=
  ((splitLines content).1.take (c.first + c.most content - 1)).drop (c.first - 1)

theorem Call.Valid.length_wanted {c : Call} (h : c.Valid content) :
    (c.wanted content).length = c.most content := by
  obtain ⟨hfirst, hlast, htotal, hmost, hstop⟩ := h.bounds
  rw [Call.wanted, List.length_drop, List.length_take_of_le (hstop.trans htotal)]
  omega

theorem Call.Valid.limited_eq {c : Call} (h : c.Valid content) :
    limited (limitOf c.input) (rangeOf content c.first (c.last content)) =
      (c.wanted content, c.preCut content) := by
  obtain ⟨hfirst, hlast, htotal, hmost, hstop⟩ := h.bounds
  have hrange : rangeOf content c.first (c.last content) = _ := rangeOf_eq content htotal
  have hlen : (rangeOf content c.first (c.last content)).length =
      c.last content - (c.first - 1) := by
    rw [hrange, List.length_drop, List.length_take_of_le htotal]
  rw [FsTools.limited_eq, hlen, hrange, List.take_drop, List.take_take]
  show (List.drop (c.first - 1) (List.take (min (c.first - 1 + c.most content) (c.last content)) _),
    c.preCut content) = _
  rw [show min (c.first - 1 + c.most content) (c.last content) = c.first + c.most content - 1 by
    omega]
  rfl

/-- The result of the first lines of them is the page of so many. -/
theorem Call.Valid.resultOf_eq {c : Call} (h : c.Valid content) (hk : k ≤ c.most content)
    (cut : Option CutBy) :
    resultOf (c.wanted content) (versionOf content) c.first (splitLines content).1.length k cut =
      c.pageCut versionOf content k cut := by
  obtain ⟨hfirst, hlast, htotal, hmost, hstop⟩ := h.bounds
  unfold resultOf Call.pageCut linesAt Call.wanted
  congr 1
  · congr 1
    rw [List.take_drop, List.take_take]
    congr 2
    omega
  · split <;> omega

section Read

variable (versionOf encode)

/-- What the pages of a call are measured to cost, cut by the budget. -/
def Call.cost (c : Call) (content : Text) (count : Text → ℚ) (cut : CutBy) (k : ℕ) : ℚ :=
  count (encode (resultOf (c.wanted content) (versionOf content) c.first
    (splitLines content).1.length k (some cut)))

end Read

/-- What a call answers. -/
theorem read_valid {c : Call} (hcontent : content ≠ []) (h : c.Valid content) :
    read versionOf encode c.ctx c.input content =
      match budgetOf c.ctx c.input, c.ctx.budgetCount with
      | some (budget, budgetFrom), some count =>
          let kept := fitLines (c.most content) budget
            (c.cost versionOf encode content count budgetFrom)
          if kept < c.most content then
            if kept = 0 then
              match asInteger budget with
              | some whole => .resultTooLarge c.first whole (total content)
                  (tooLargeError c.first whole)
              | none => .raised
            else .page (resultOf (c.wanted content) (versionOf content) c.first
              (splitLines content).1.length kept (some budgetFrom))
          else .page (resultOf (c.wanted content) (versionOf content) c.first
            (splitLines content).1.length (c.most content) (c.preCut content))
      | some _, none => .raised
      | none, _ => .page (resultOf (c.wanted content) (versionOf content) c.first
          (splitLines content).1.length (c.most content) (c.preCut content)) := by
  have hlimited := h.limited_eq
  have hlen := h.length_wanted
  obtain ⟨hpos, hle, hin⟩ := h
  have hvalid : ¬ (c.input.startLine.getD 1 < 1 ∨
      c.input.endLine.getD (splitLines content).1.length < c.input.startLine.getD 1 ∨
      c.input.startLine.getD 1 > (splitLines content).1.length) := by
    change c.input.startLine.getD 1 ≤ c.input.endLine.getD (splitLines content).1.length at hle
    change c.input.startLine.getD 1 ≤ (splitLines content).1.length at hin
    omega
  unfold read
  dsimp only
  rw [if_neg hcontent, if_neg hvalid]
  change limited (limitOf c.input) (rangeOf content (c.input.startLine.getD 1).toNat
    (min (c.input.endLine.getD (splitLines content).1.length).toNat
      (splitLines content).1.length)) = _ at hlimited
  rw [hlimited]
  dsimp only
  rw [hlen]
  rfl

/-! ### A call by itself -/

section Spec

variable (versionOf encode)

/-- The page a call answers is as it should be. -/
structure Call.Answers (c : Call) (content : Text) (r : ReadResult) : Prop where
  /-- It is some of the lines asked for, from the first on, as the editor
  numbers them. -/
  start : r.startLine = c.first
  some_line : c.first ≤ r.endLine
  asked : r.endLine ≤ c.last content
  lines : r.content = linesAt (splitLines content).1 r.startLine r.endLine
  file : r.total = total content
  /-- An edit of that range, that text and that version passes its checks. -/
  edits : ∀ replace, ∃ planned, plan versionOf ⟨some r.version,
    some [⟨r.startLine, r.endLine, r.content, replace⟩]⟩ content = .ok planned
  truncated : r.truncated = true ↔ r.endLine < c.last content
  /-- It costs at most the budget, -/
  within : ∀ budget cut count, budgetOf c.ctx c.input = some (budget, cut) →
    c.ctx.budgetCount = some count → count (encode r) ≤ budget
  /-- and where there are more lines, one more would not, or would pass the
  limit. -/
  largest : r.endLine < c.last content →
    limitOf c.input = some (r.endLine + 1 - c.first) ∨
      ∃ budget cut count, budgetOf c.ctx c.input = some (budget, cut) ∧
        c.ctx.budgetCount = some count ∧
        budget < count (encode (c.page versionOf content (r.endLine + 1 - c.first + 1)))

/-- A call answers such a page, or refuses a line that alone is over the
budget. -/
def ReadsPage (c : Call) (content : Text) : ReadAnswer → Prop
  | .page r => c.Answers versionOf encode content r
  | .resultTooLarge line said total' _ =>
      line = c.first ∧ total' = total content ∧
        ∃ budget cut count, budgetOf c.ctx c.input = some (budget, cut) ∧
          c.ctx.budgetCount = some count ∧ (said : ℚ) = budget ∧
          budget < count (encode (c.page versionOf content 1))
  | _ => False

/-- All the lines the call may answer are within the budget, but not when they
are measured as cut by it; and all but one of them are, or there is one. -/
def Call.Squeezed (c : Call) (content : Text) : Prop :=
  ∃ budget cut count, budgetOf c.ctx c.input = some (budget, cut) ∧
    c.ctx.budgetCount = some count ∧
    (c.most content = 1 ∨
      count (encode (c.pageCut versionOf content (c.most content - 1) (some cut))) ≤ budget) ∧
    count (encode (c.page versionOf content (c.most content))) ≤ budget ∧
    budget < count (encode (c.pageCut versionOf content (c.most content) (some cut)))

/-- Not one line is within the budget, and the budget has no `%d` to be written
with. -/
def Call.Unwritable (c : Call) (content : Text) : Prop :=
  ∃ budget cut count, budgetOf c.ctx c.input = some (budget, cut) ∧
    c.ctx.budgetCount = some count ∧ asInteger budget = none ∧
    budget < count (encode (c.pageCut versionOf content 1 (some cut)))

end Spec

/-- An edit that passes, of the version there is, is planned. -/
theorem plan_of_passes {e : EditRequest} (h : e.Passes (splitLines content).1) :
    ∃ planned, plan versionOf ⟨some (versionOf content), some [e]⟩ content = .ok planned := by
  have hadmitted : Admitted versionOf ⟨some (versionOf content), some [e]⟩ content [e] := by
    refine ⟨?_, rfl, List.cons_ne_nil _ _, ?_, List.pairwise_singleton _ _⟩
    · intro base hbase
      exact Or.inr (Option.some.inj hbase).symm
    · intro e' he'
      rw [List.mem_singleton.mp he']
      exact h
  exact ⟨_, plan_of_admitted hadmitted⟩

/-- The version read, and the text read, let an edit of its range pass. -/
theorem Call.Valid.edits {c : Call} (h : c.Valid content) (hpos : 1 ≤ k) (hk : k ≤ c.most content)
    (replace : Text) :
    ∃ planned, plan versionOf ⟨some (versionOf content), some [⟨c.first, c.first + k - 1,
      linesAt (splitLines content).1 c.first (c.first + k - 1), replace⟩]⟩ content =
        .ok planned := by
  obtain ⟨hfirst, hlast, htotal, hmost, hstop⟩ := h.bounds
  apply plan_of_passes
  refine ⟨hfirst, ?_, ?_, rfl⟩
  · show c.first ≤ c.first + k - 1
    omega
  · show c.first + k - 1 ≤ total content
    omega

theorem intercalate_prefix (xs ys : List Text) :
    List.intercalate ['\n'] xs <+: List.intercalate ['\n'] (xs ++ ys) := by
  induction xs with
  | nil => exact List.nil_prefix
  | cons x xs ih =>
      cases xs with
      | nil =>
          cases ys with
          | nil => exact List.prefix_rfl
          | cons y ys =>
              show List.intercalate ['\n'] [x] <+: List.intercalate ['\n'] (x :: y :: ys)
              rw [List.intercalate_cons_cons, List.intercalate_singleton, List.append_assoc]
              exact List.prefix_append _ _
      | cons x' xs =>
          rw [List.cons_append, List.cons_append, List.intercalate_cons_cons,
            List.intercalate_cons_cons]
          exact (List.prefix_append_right_inj _).mpr ih

theorem linesAt_prefix (lines : List Text) {first m n : ℕ} (h : m ≤ n) :
    linesAt lines first m <+: linesAt lines first n := by
  have hprefix : (lines.take m).drop (first - 1) <+: (lines.take n).drop (first - 1) :=
    List.IsPrefix.drop (List.take_prefix_take_left h) _
  obtain ⟨rest, hrest⟩ := hprefix
  rw [linesAt, linesAt, ← hrest]
  exact intercalate_prefix _ _

/-- Pages of more lines cost more. -/
theorem Call.pageCut_le {c : Call} {count : Text → ℚ} {m : ℕ} {cut cut' : Option CutBy}
    (hencode : Encodes encode) (hgrows : Grows count) (hkm : k ≤ m)
    (hcut : cutLength cut ≤ cutLength cut') :
    count (encode (c.pageCut versionOf content k cut)) ≤
      count (encode (c.pageCut versionOf content m cut')) := by
  refine cost_le hencode hgrows ?_ rfl rfl rfl ?_ hcut
  · exact linesAt_prefix _ (by omega)
  · show c.first + k - 1 ≤ c.first + m - 1
    omega

/-- What more lines cost at most, fewer do. -/
theorem Call.over_of_le {c : Call} {count : Text → ℚ} {budget : ℚ} {m : ℕ} {cut : Option CutBy}
    (hencode : Encodes encode) (hgrows : Grows count) (hkm : k ≤ m)
    (hover : budget < count (encode (c.pageCut versionOf content k cut))) :
    ¬ count (encode (c.pageCut versionOf content m cut)) ≤ budget := by
  have hle : count (encode (c.pageCut versionOf content k cut)) ≤
      count (encode (c.pageCut versionOf content m cut)) :=
    Call.pageCut_le hencode hgrows hkm (Nat.le_refl _)
  exact not_le.mpr (hover.trans_le hle)

theorem budgetOf_cut {ctx : Ctx} {input : ReadInput} {budget : ℚ} {cut : CutBy}
    (h : budgetOf ctx input = some (budget, cut)) :
    (cut = .budget ∨ cut = .maxTokens) ∧ ∃ count, ctx.budgetCount = some count := by
  have hshare : ∀ b, ctx.budgetTokens.map (fun budget => (budget, CutBy.budget)) = some (b, cut) →
      (cut = .budget ∨ cut = .maxTokens) ∧ ∃ count, ctx.budgetCount = some count := by
    intro b hb
    obtain ⟨share, htokens, heq⟩ := Option.map_eq_some_iff.mp hb
    have hcount := ctx.counted (by rw [htokens]; rfl)
    exact ⟨Or.inl (Prod.mk.inj heq).2.symm, Option.isSome_iff_exists.mp hcount⟩
  unfold budgetOf at h
  dsimp only at h
  split at h
  next want count hwant hcount =>
    split at h
    · obtain ⟨-, rfl⟩ := Prod.mk.inj (Option.some.inj h)
      exact ⟨Or.inr rfl, count, hcount⟩
    · exact hshare _ h
  next => exact hshare _ h

theorem Call.preCut_le {c : Call} {cut : CutBy} (hcut : cut = .budget ∨ cut = .maxTokens) :
    cutLength (c.preCut content) ≤ cutLength (some cut) := by
  unfold Call.preCut
  split <;> rcases hcut with rfl | rfl <;> decide

theorem Call.Valid.cost_eq {c : Call} (h : c.Valid content) {count : Text → ℚ} {cut : CutBy}
    (hk : k ≤ c.most content) :
    c.cost versionOf encode content count cut k =
      count (encode (c.pageCut versionOf content k (some cut))) := by
  rw [Call.cost, h.resultOf_eq hk]

/-- A page that the limit cut, or nothing did. -/
theorem Call.Valid.answers_most {c : Call} (h : c.Valid content)
    (hwithin : ∀ budget cut count, budgetOf c.ctx c.input = some (budget, cut) →
      c.ctx.budgetCount = some count →
      count (encode (c.pageCut versionOf content (c.most content) (c.preCut content))) ≤ budget) :
    c.Answers versionOf encode content
      (c.pageCut versionOf content (c.most content) (c.preCut content)) := by
  obtain ⟨hfirst, hlast, htotal, hmost, hstop⟩ := h.bounds
  have hcut : c.most content < c.last content - (c.first - 1) ↔
      c.first + c.most content - 1 < c.last content := by omega
  refine ⟨rfl, ?_, hstop, rfl, rfl, h.edits hmost (Nat.le_refl _), ?_, hwithin, fun hmore => ?_⟩
  · show c.first ≤ c.first + c.most content - 1
    omega
  · show (c.preCut content).isSome = true ↔ c.first + c.most content - 1 < c.last content
    rw [← hcut, Call.preCut]
    split
    next hlt => exact iff_of_true rfl hlt
    next hnot => exact iff_of_false (fun h => Bool.noConfusion h) hnot
  · left
    show limitOf c.input = some (c.first + c.most content - 1 + 1 - c.first)
    have hlt := hcut.mpr hmore
    rw [show c.first + c.most content - 1 + 1 - c.first = c.most content by omega]
    unfold Call.most mostOf at hlt ⊢
    cases hlimit : limitOf c.input with
    | none =>
        rw [hlimit] at hlt
        exact absurd hlt (Nat.lt_irrefl _)
    | some limit =>
        rw [hlimit] at hlt
        dsimp only at hlt ⊢
        rw [Nat.min_eq_left (by omega)]

/-- A page that the budget cut. -/
theorem Call.Valid.answers_cut {c : Call} (h : c.Valid content) {budget : ℚ} {cut : CutBy}
    {count : Text → ℚ} (hbudget : budgetOf c.ctx c.input = some (budget, cut))
    (hcount : c.ctx.budgetCount = some count) (hpos : 0 < k) (hk : k < c.most content)
    (hfits : count (encode (c.pageCut versionOf content k (some cut))) ≤ budget) :
    c.Answers versionOf encode content (c.pageCut versionOf content k (some cut)) ↔
      budget < count (encode (c.page versionOf content (k + 1))) := by
  obtain ⟨hfirst, hlast, htotal, hmost, hstop⟩ := h.bounds
  have hmore : c.first + k - 1 < c.last content := by omega
  have hnext : c.first + k - 1 + 1 - c.first = k := by omega
  constructor
  · intro hanswers
    rcases hanswers.largest hmore with hlimit | ⟨budget', cut', count', hbudget', hcount', hlarge⟩
    · -- a limit of so many lines would have left no more than that
      have hmin : c.most content ≤ k := by
        change limitOf c.input = some (c.first + k - 1 + 1 - c.first) at hlimit
        rw [Call.most, hlimit, hnext]
        exact Nat.min_le_left _ _
      omega
    · obtain ⟨rfl, rfl⟩ := Prod.mk.inj (Option.some.inj (hbudget.symm.trans hbudget'))
      obtain rfl := Option.some.inj (hcount.symm.trans hcount')
      change budget < count (encode (c.page versionOf content (c.first + k - 1 + 1 - c.first + 1)))
        at hlarge
      rwa [hnext] at hlarge
  · intro hlarge
    refine ⟨rfl, ?_, hmore.le, rfl, rfl, h.edits hpos hk.le, iff_of_true rfl hmore, ?_,
      fun _ => Or.inr ⟨budget, cut, count, hbudget, hcount, ?_⟩⟩
    · show c.first ≤ c.first + k - 1
      omega
    · intro budget' cut' count' hbudget' hcount'
      obtain ⟨rfl, rfl⟩ := Prod.mk.inj (Option.some.inj (hbudget.symm.trans hbudget'))
      obtain rfl := Option.some.inj (hcount.symm.trans hcount')
      exact hfits
    · show budget < count (encode (c.page versionOf content (c.first + k - 1 + 1 - c.first + 1)))
      rwa [hnext]


/-! ### When it answers so -/

section Budget

variable {c : Call} {budget : ℚ} {cut : CutBy} {count : Text → ℚ}
  (hbudget : budgetOf c.ctx c.input = some (budget, cut)) (hcount : c.ctx.budgetCount = some count)

include hbudget in
theorem Call.page_of_lt (hk : k < c.most content) :
    c.page versionOf content k = c.pageCut versionOf content k (some cut) := by
  rw [Call.page, if_pos hk, hbudget]
  rfl

include hbudget hcount

/-- What is said of the budget a call has, and of its count, is said of these. -/
theorem Call.budget_iff {P : ℚ → CutBy → (Text → ℚ) → Prop} :
    (∃ budget' cut' count', budgetOf c.ctx c.input = some (budget', cut') ∧
      c.ctx.budgetCount = some count' ∧ P budget' cut' count') ↔ P budget cut count := by
  constructor
  · rintro ⟨budget', cut', count', hbudget', hcount', h⟩
    obtain ⟨rfl, rfl⟩ := Prod.mk.inj (Option.some.inj (hbudget.symm.trans hbudget'))
    obtain rfl := Option.some.inj (hcount.symm.trans hcount')
    exact h
  · intro h
    exact ⟨budget, cut, count, hbudget, hcount, h⟩

theorem Call.squeezed_iff : c.Squeezed versionOf encode content ↔
    (c.most content = 1 ∨
      count (encode (c.pageCut versionOf content (c.most content - 1) (some cut))) ≤ budget) ∧
    count (encode (c.page versionOf content (c.most content))) ≤ budget ∧
    budget < count (encode (c.pageCut versionOf content (c.most content) (some cut))) :=
  Call.budget_iff hbudget hcount

theorem Call.unwritable_iff : c.Unwritable versionOf encode content ↔
    asInteger budget = none ∧
      budget < count (encode (c.pageCut versionOf content 1 (some cut))) :=
  Call.budget_iff hbudget hcount

variable (hvalid : c.Valid content) (hencode : Encodes encode) (hgrows : Grows count)

include hvalid hencode hgrows

/-- All the lines are within the budget, cut by it. -/
theorem Call.Valid.readsPage_all
    (hfits : count (encode (c.pageCut versionOf content (c.most content) (some cut))) ≤ budget) :
    ReadsPage versionOf encode c content (.page (c.pageCut versionOf content (c.most content)
      (c.preCut content))) ↔
      ¬ c.Squeezed versionOf encode content ∧ ¬ c.Unwritable versionOf encode content := by
  rw [Call.squeezed_iff hbudget hcount, Call.unwritable_iff hbudget hcount]
  have hmost := hvalid.bounds.2.2.2.1
  have hprecut := (Call.preCut_le (budgetOf_cut hbudget).1 : cutLength (c.preCut content) ≤ _)
  apply iff_of_true
  · apply hvalid.answers_most
    intro budget' cut' count' hbudget' hcount'
    obtain ⟨rfl, rfl⟩ := Prod.mk.inj (Option.some.inj (hbudget.symm.trans hbudget'))
    obtain rfl := Option.some.inj (hcount.symm.trans hcount')
    exact (Call.pageCut_le hencode hgrows (Nat.le_refl _) hprecut).trans hfits
  · constructor
    · rintro ⟨-, -, hover⟩
      exact absurd hfits (not_le.mpr hover)
    · rintro ⟨-, hover⟩
      exact absurd hfits (Call.over_of_le hencode hgrows hmost hover)

/-- Not one line is. -/
theorem Call.Valid.readsPage_refused
    (hover : budget < count (encode (c.pageCut versionOf content 1 (some cut)))) :
    ReadsPage versionOf encode c content
      (match asInteger budget with
        | some whole => .resultTooLarge c.first whole (total content)
            (tooLargeError c.first whole)
        | none => .raised) ↔
      ¬ c.Squeezed versionOf encode content ∧ ¬ c.Unwritable versionOf encode content := by
  rw [Call.squeezed_iff hbudget hcount, Call.unwritable_iff hbudget hcount]
  have hmost := hvalid.bounds.2.2.2.1
  cases hwhole : asInteger budget with
  | none =>
      -- it raises
      exact iff_of_false id fun h => h.2 ⟨rfl, hover⟩
  | some whole =>
      have hsaid : (whole : ℚ) = budget := by
        unfold asInteger at hwhole
        split at hwhole
        next hint =>
          obtain rfl := Option.some.inj hwhole
          exact (Rat.den_eq_one_iff _).mp (beq_iff_eq.mp hint.1)
        next => cases hwhole
      have hrefuses : ReadsPage versionOf encode c content (.resultTooLarge c.first whole
          (total content) (tooLargeError c.first whole)) ↔
            budget < count (encode (c.page versionOf content 1)) := by
        constructor
        · rintro ⟨-, -, budget', cut', count', hbudget', hcount', -, hlarge⟩
          obtain ⟨rfl, rfl⟩ := Prod.mk.inj (Option.some.inj (hbudget.symm.trans hbudget'))
          obtain rfl := Option.some.inj (hcount.symm.trans hcount')
          exact hlarge
        · intro hlarge
          exact ⟨rfl, rfl, budget, cut, count, hbudget, hcount, hsaid, hlarge⟩
      refine hrefuses.trans ?_
      rcases Nat.eq_or_lt_of_le hmost with hone | hmore
      · rw [← hone]
        constructor
        · intro hlarge
          exact ⟨fun h => absurd hlarge (not_lt.mpr h.2.1), fun h => by cases h.1⟩
        · rintro ⟨hsqueezed, -⟩
          by_contra hsmall
          exact hsqueezed ⟨Or.inl rfl, not_lt.mp hsmall, hover⟩
      · rw [Call.page_of_lt hbudget hmore]
        apply iff_of_true hover
        refine ⟨?_, fun h => by cases h.1⟩
        rintro ⟨hless | hless, -, -⟩
        · omega
        · have hle : 1 ≤ c.most content - 1 := by omega
          exact absurd hless (Call.over_of_le hencode hgrows hle hover)

/-- Some are, and one more is not. -/
theorem Call.Valid.readsPage_cut (hpos : 0 < k) (hk : k < c.most content)
    (hfits : count (encode (c.pageCut versionOf content k (some cut))) ≤ budget)
    (hover : budget < count (encode (c.pageCut versionOf content (k + 1) (some cut)))) :
    ReadsPage versionOf encode c content (.page (c.pageCut versionOf content k (some cut))) ↔
      ¬ c.Squeezed versionOf encode content ∧ ¬ c.Unwritable versionOf encode content := by
  rw [Call.squeezed_iff hbudget hcount, Call.unwritable_iff hbudget hcount]
  refine (hvalid.answers_cut hbudget hcount hpos hk hfits).trans ?_
  have hwritable : ¬ (asInteger budget = none ∧
      budget < count (encode (c.pageCut versionOf content 1 (some cut)))) := by
    rintro ⟨-, hone⟩
    exact absurd hfits (Call.over_of_le hencode hgrows hpos hone)
  rcases Nat.eq_or_lt_of_le (Nat.succ_le_of_lt hk) with hlast | hmore
  · have hless : c.most content - 1 = k := by omega
    rw [hless, ← hlast]
    constructor
    · intro hlarge
      exact ⟨fun h => absurd hlarge (not_lt.mpr h.2.1), hwritable⟩
    · rintro ⟨hsqueezed, -⟩
      by_contra hsmall
      exact hsqueezed ⟨Or.inr hfits, not_lt.mp hsmall, hover⟩
  · rw [Call.page_of_lt hbudget hmore]
    apply iff_of_true hover
    refine ⟨?_, hwritable⟩
    rintro ⟨hless | hless, -, -⟩
    · omega
    · have hle : k + 1 ≤ c.most content - 1 := by omega
      exact absurd hless (Call.over_of_le hencode hgrows hle hover)

end Budget

/-- **When a call answers as it should**: all the lines it may answer are within
the budget just when they are so measured as cut by it, or all but one of them
are not; and one line is, or the budget can be written. -/
theorem readsPage_iff {c : Call} (hcontent : content ≠ []) (hvalid : c.Valid content)
    (hencode : Encodes encode)
    (hgrows : ∀ count, c.ctx.budgetCount = some count → Grows count) :
    ReadsPage versionOf encode c content (read versionOf encode c.ctx c.input content) ↔
      ¬ c.Squeezed versionOf encode content ∧ ¬ c.Unwritable versionOf encode content := by
  rw [read_valid hcontent hvalid]
  cases hbudget : budgetOf c.ctx c.input with
  | none =>
      have hnone : ∀ {budget : ℚ} {cut : CutBy},
          budgetOf c.ctx c.input ≠ some (budget, cut) := fun h => by
        rw [hbudget] at h
        cases h
      dsimp only
      rw [hvalid.resultOf_eq (Nat.le_refl _)]
      apply iff_of_true
      · exact hvalid.answers_most fun _ _ _ h => absurd h hnone
      · exact ⟨fun ⟨_, _, _, h, _⟩ => hnone h, fun ⟨_, _, _, h, _⟩ => hnone h⟩
  | some measured =>
      obtain ⟨budget, cut⟩ := measured
      obtain ⟨-, count, hcount⟩ := budgetOf_cut hbudget
      have hcost : ∀ j, j ≤ c.most content → c.cost versionOf encode content count cut j =
          count (encode (c.pageCut versionOf content j (some cut))) := fun j hj => hvalid.cost_eq hj
      -- a page of more lines never counts less, so what the search finds is the most
      have hmono : ∀ i j, 1 ≤ i → i ≤ j → j ≤ c.most content →
          c.cost versionOf encode content count cut i ≤
            c.cost versionOf encode content count cut j := by
        intro i j _ hij hj
        rw [hcost i (hij.trans hj), hcost j hj]
        exact Call.pageCut_le hencode (hgrows count hcount) hij (Nat.le_refl _)
      obtain ⟨hle, hfits, hover⟩ := fitLines_spec budget hmono
      rw [hcount]
      dsimp only
      generalize fitLines (c.most content) budget (c.cost versionOf encode content count cut) = kept
        at hle hfits hover ⊢
      have hmost := hvalid.bounds.2.2.2.1
      by_cases hall : kept < c.most content
      · rw [if_pos hall]
        have hover := hover hall
        rw [hcost _ (Nat.succ_le_of_lt hall)] at hover
        by_cases hzero : kept = 0
        · rw [if_pos hzero]
          rw [hzero] at hover
          -- not one line is within the budget: refused, with the budget in the error
          exact hvalid.readsPage_refused hbudget hcount hencode (hgrows count hcount) hover
        · have hpos : 0 < kept := Nat.pos_of_ne_zero hzero
          have hfits := hfits hpos
          rw [hcost _ hle] at hfits
          rw [if_neg hzero, hvalid.resultOf_eq hle]
          exact hvalid.readsPage_cut hbudget hcount hencode (hgrows count hcount) hpos hall hfits
            hover
      · rw [if_neg hall, hvalid.resultOf_eq (Nat.le_refl _)]
        obtain rfl : kept = c.most content := by omega
        have hfits := hfits hmost
        rw [hcost _ (Nat.le_refl _)] at hfits
        exact hvalid.readsPage_all hbudget hcount hencode (hgrows count hcount) hfits

/-! ### A file read page by page -/

/-- The call, asking from this line on. -/
def Call.startingAt (c : Call) (start : ℕ) : Call :=
  { c with input := { c.input with startLine := some (start : ℤ) } }

@[simp] theorem Call.startingAt_first (c : Call) (start : ℕ) : (c.startingAt start).first = start :=
  rfl

/-- The lines of a result, by their numbers. -/
def ReadResult.numbers (r : ReadResult) : List ℕ :=
  List.range' r.startLine (r.endLine + 1 - r.startLine)

def ReadAnswer.page? : ReadAnswer → Option ReadResult
  | .page r => some r
  | _ => none

section Session

variable (versionOf encode)

/-- The calls made, and what they answer: each asks from the line after the last
page, until a page ends with the file. -/
def session (content : Text) : Call → List Call → List (Call × ReadAnswer)
  | c, [] => [(c, read versionOf encode c.ctx c.input content)]
  | c, next :: asks =>
      (c, read versionOf encode c.ctx c.input content) ::
        match read versionOf encode c.ctx c.input content with
        | .page r =>
            if r.endLine = r.total then []
            else session content (next.startingAt (r.endLine + 1)) asks
        | _ => []

def pages (made : List (Call × ReadAnswer)) : List ReadResult :=
  made.filterMap fun call => call.2.page?

/-- The pages are the lines from `first` to `stop`, each once and in order; and
where there were calls enough, they stop with the file or before a line that is
refused. -/
structure Covers (content : Text) (first asks : ℕ) (made : List (Call × ReadAnswer)) (stop : ℕ) :
    Prop where
  first_le : first ≤ stop + 1
  stop_le : stop ≤ total content
  numbers : (pages made).flatMap ReadResult.numbers = List.range' first (stop + 1 - first)
  lines : (pages made).flatMap (fun r => r.content.splitOn '\n') =
    ((splitLines content).1.take stop).drop (first - 1)
  ends : total content ≤ first + asks → stop = total content ∨
    ∃ c budget error,
      made.getLast? = some (c, .resultTooLarge (stop + 1) budget (total content) error)

/-- Every call answers as it should, and the pages lose nothing. -/
structure ReadsInPages (content : Text) (c : Call) (asks : List Call) : Prop where
  each : ∀ made ∈ session versionOf encode content c asks,
    ReadsPage versionOf encode made.1 content made.2
  covers : ∃ stop, Covers content c.first asks.length (session versionOf encode content c asks) stop

end Session

/-- The lines of a page are got back from its text. -/
theorem splitOn_linesAt {first last : ℕ} (hfirst : 1 ≤ first) (hle : first ≤ last)
    (hlast : last ≤ total content) :
    (linesAt (splitLines content).1 first last).splitOn '\n' =
      ((splitLines content).1.take last).drop (first - 1) := by
  apply List.splitOn_intercalate
  · intro l hl
    exact newline_not_mem (List.mem_of_mem_take (List.mem_of_mem_drop hl))
  · apply List.ne_nil_of_length_pos
    rw [List.length_drop, List.length_take_of_le hlast]
    omega

theorem mem_session {c : Call} {asks : List Call} {made : Call × ReadAnswer}
    (h : made ∈ session versionOf encode content c asks) :
    made.2 = read versionOf encode made.1.ctx made.1.input content ∧
      ∃ call ∈ c :: asks, made.1.ctx = call.ctx := by
  induction asks generalizing c with
  | nil =>
      obtain rfl := List.mem_singleton.mp h
      exact ⟨rfl, c, List.mem_cons_self, rfl⟩
  | cons next asks ih =>
      rcases List.mem_cons.mp h with rfl | hlater
      · exact ⟨rfl, c, List.mem_cons_self, rfl⟩
      · split at hlater
        next r hr =>
          split at hlater
          · cases hlater
          · obtain ⟨hread, call, hcall, hctx⟩ := ih hlater
            refine ⟨hread, ?_⟩
            rcases List.mem_cons.mp hcall with rfl | hcall
            · exact ⟨next, List.mem_cons_of_mem _ List.mem_cons_self, hctx⟩
            · exact ⟨call, List.mem_cons_of_mem _ (List.mem_cons_of_mem _ hcall), hctx⟩
        next => cases hlater

theorem head_mem_session (c : Call) (asks : List Call) :
    (c, read versionOf encode c.ctx c.input content) ∈
      session versionOf encode content c asks := by
  cases asks <;> exact List.mem_cons_self

/-- One page covers its lines. -/
theorem Covers.of_page {c : Call} {r : ReadResult} {asks : ℕ} (hfirst : 1 ≤ c.first)
    (hlast : c.last content ≤ total content) (h : c.Answers versionOf encode content r)
    (hends : total content ≤ c.first + asks → r.endLine = total content) :
    Covers content c.first asks [(c, .page r)] r.endLine := by
  have hsome := h.some_line
  have hasked := h.asked
  refine ⟨by omega, hasked.trans hlast, ?_, ?_, fun henough => Or.inl (hends henough)⟩
  · show r.numbers ++ [] = _
    rw [List.append_nil, ReadResult.numbers, h.start]
  · show r.content.splitOn '\n' ++ [] = _
    rw [List.append_nil, h.lines, h.start]
    exact splitOn_linesAt hfirst hsome (hasked.trans hlast)

/-- A page before pages that go on where it ends. -/
theorem Covers.cons {c : Call} {r : ReadResult} {asks stop : ℕ} {made : List (Call × ReadAnswer)}
    (hfirst : 1 ≤ c.first) (hlast : c.last content ≤ total content)
    (h : c.Answers versionOf encode content r)
    (hrest : Covers content (r.endLine + 1) asks made stop) :
    Covers content c.first (asks + 1) ((c, .page r) :: made) stop := by
  have hsome := h.some_line
  have hasked := h.asked
  have hstop := hrest.first_le
  refine ⟨by omega, hrest.stop_le, ?_, ?_, fun henough => ?_⟩
  · show r.numbers ++ (pages made).flatMap ReadResult.numbers = _
    rw [hrest.numbers, ReadResult.numbers, h.start]
    have hnext : r.endLine + 1 = c.first + (r.endLine + 1 - c.first) := by omega
    have hlen : r.endLine + 1 - c.first + (stop + 1 - (r.endLine + 1)) = stop + 1 - c.first := by
      omega
    rw [hnext, Nat.add_sub_cancel_left, List.range'_append_1, ← hlen, ← hnext]
  · show r.content.splitOn '\n' ++ (pages made).flatMap (fun r => r.content.splitOn '\n') = _
    rw [hrest.lines, h.lines, h.start, splitOn_linesAt hfirst hsome (hasked.trans hlast),
      Nat.add_sub_cancel]
    -- the lines of this page are those that the rest leaves out
    have hsplit : (splitLines content).1.take stop = (splitLines content).1.take r.endLine ++
        ((splitLines content).1.take stop).drop r.endLine := by
      conv => lhs; rw [← List.take_append_drop r.endLine ((splitLines content).1.take stop)]
      rw [List.take_take, Nat.min_eq_left (by omega)]
    have hlen : ((splitLines content).1.take r.endLine).length = r.endLine :=
      List.length_take_of_le (hasked.trans hlast)
    conv => rhs; rw [hsplit]
    rw [List.drop_append_of_le_length (by rw [hlen]; omega)]
  · rcases hrest.ends (by omega) with hall | ⟨c', budget, error, hrefused⟩
    · exact Or.inl hall
    · refine Or.inr ⟨c', budget, error, ?_⟩
      rw [List.getLast?_cons_of_ne_nil]
      · exact hrefused
      · rintro rfl
        cases hrefused

/-- A line that is refused ends the pages before it. -/
theorem Covers.of_refusal {c : Call} {budget : ℤ} {error : String} (asks : ℕ)
    (hfirst : 1 ≤ c.first) (hle : c.first ≤ total content) :
    Covers content c.first asks [(c, .resultTooLarge c.first budget (total content) error)]
      (c.first - 1) := by
  refine ⟨by omega, by omega, ?_, ?_, fun _ => Or.inr ⟨c, budget, error, ?_⟩⟩
  · rw [show c.first - 1 + 1 - c.first = 0 by omega]
    rfl
  · rw [List.drop_eq_nil_of_le (List.length_take_le _ _)]
    rfl
  · rw [Nat.sub_add_cancel hfirst]
    rfl

/-- What is answered as it should be is a page, or refuses the first line. -/
theorem ReadsPage.cases {c : Call} {answer : ReadAnswer}
    (h : ReadsPage versionOf encode c content answer) :
    (∃ r, answer = .page r ∧ c.Answers versionOf encode content r) ∨
      ∃ budget error, answer = .resultTooLarge c.first budget (total content) error := by
  cases answer with
  | page r => exact Or.inl ⟨r, rfl, h⟩
  | resultTooLarge line budget total' error =>
      obtain ⟨rfl, rfl, -⟩ := h
      exact Or.inr ⟨budget, error, rfl⟩
  | rangeInvalid total' error => exact h.elim
  | raised => exact h.elim

/-- Pages that are each as they should be lose nothing. -/
theorem covers_of_each {c : Call} {asks : List Call}
    (hvalid : ∀ made ∈ session versionOf encode content c asks, made.1.Valid content)
    (heach : ∀ made ∈ session versionOf encode content c asks,
      ReadsPage versionOf encode made.1 content made.2) :
    ∃ stop, Covers content c.first asks.length (session versionOf encode content c asks) stop := by
  induction asks generalizing c with
  | nil =>
      have hhere := (heach _ (head_mem_session c [])).cases
      obtain ⟨hfirst, hle, hlast, -, -⟩ := (hvalid _ (head_mem_session c [])).bounds
      rw [session]
      rcases hhere with ⟨r, hread, hpage⟩ | ⟨budget, error, hread⟩
      · have hsome := hpage.some_line
        have hasked := hpage.asked
        dsimp only at hread
        rw [hread]
        refine ⟨r.endLine, Covers.of_page hfirst hlast hpage fun henough => ?_⟩
        change total content ≤ c.first at henough
        change c.first ≤ r.endLine at hsome
        exact Nat.le_antisymm (hasked.trans hlast) (henough.trans hsome)
      · dsimp only at hread
        rw [hread]
        exact ⟨_, Covers.of_refusal 0 hfirst (hle.trans hlast)⟩
  | cons next asks ih =>
      have hhere := (heach _ (head_mem_session c (next :: asks))).cases
      obtain ⟨hfirst, hle, hlast, -, -⟩ := (hvalid _ (head_mem_session c (next :: asks))).bounds
      rcases hhere with ⟨r, hread, hpage⟩ | ⟨budget, error, hread⟩
      · dsimp only at hread
        rw [session, hread] at hvalid heach ⊢
        by_cases hend : r.endLine = r.total
        · dsimp only
          rw [if_pos hend]
          exact ⟨r.endLine, Covers.of_page hfirst hlast hpage fun _ => hend.trans hpage.file⟩
        · dsimp only at hvalid heach ⊢
          rw [if_neg hend] at hvalid heach ⊢
          -- the next call begins behind the last line of this page
          obtain ⟨stop, hstop⟩ := ih (fun made hmade => hvalid made (List.mem_cons_of_mem _ hmade))
            (fun made hmade => heach made (List.mem_cons_of_mem _ hmade))
          exact ⟨stop, hstop.cons hfirst hlast hpage⟩
      · dsimp only at hread
        rw [session, hread]
        exact ⟨_, Covers.of_refusal _ hfirst (hle.trans hlast)⟩

theorem ReadsInPages.first_call {c : Call} {asks : List Call}
    (h : ReadsInPages versionOf encode content c asks) (hcontent : content ≠ [])
    (hvalid : c.Valid content) (hencode : Encodes encode)
    (hgrows : ∀ count, c.ctx.budgetCount = some count → Grows count) :
    ¬ c.Squeezed versionOf encode content ∧ ¬ c.Unwritable versionOf encode content :=
  (readsPage_iff hcontent hvalid hencode hgrows).mp (h.each _ (head_mem_session c asks))

/-- **Reading a file in pages** loses nothing, and agrees with the editor, just
when no call of it is squeezed by its budget, or has one that cannot be
written. -/
theorem readsInPages_iff (versionOf : Text → Text) (encode : ReadResult → Text) (content : Text)
    (c : Call) (asks : List Call) (hcontent : content ≠ []) (hencode : Encodes encode)
    (hgrows : ∀ call ∈ c :: asks, ∀ count, call.ctx.budgetCount = some count → Grows count)
    (hvalid : ∀ made ∈ session versionOf encode content c asks, made.1.Valid content) :
    ReadsInPages versionOf encode content c asks ↔
      ∀ made ∈ session versionOf encode content c asks,
        ¬ made.1.Squeezed versionOf encode content ∧
          ¬ made.1.Unwritable versionOf encode content := by
  have heach : ∀ made ∈ session versionOf encode content c asks,
      (ReadsPage versionOf encode made.1 content made.2 ↔
        ¬ made.1.Squeezed versionOf encode content ∧
          ¬ made.1.Unwritable versionOf encode content) := by
    intro made hmade
    obtain ⟨hread, call, hcall, hctx⟩ := mem_session hmade
    rw [hread]
    refine readsPage_iff hcontent (hvalid made hmade) hencode ?_
    rw [hctx]
    exact hgrows call hcall
  constructor
  · intro h made hmade
    exact (heach made hmade).mp (h.each made hmade)
  · intro h
    have hread : ∀ made ∈ session versionOf encode content c asks,
        ReadsPage versionOf encode made.1 content made.2 :=
      fun made hmade => (heach made hmade).mpr (h made hmade)
    exact ⟨hread, covers_of_each hvalid hread⟩

/-! ### Two files -/

/-- An encoder that escapes nothing. -/
def plainEncode (r : ReadResult) : Text := objectText (members (fun c => [c]) r)

theorem plainEncode_encodes : Encodes plainEncode :=
  ⟨fun c => [c], fun r => ⟨members _ r, List.Perm.refl _, rfl⟩⟩

/-- A count of characters. -/
def lengthCount (t : Text) : ℚ := t.length

theorem lengthCount_grows : Grows lengthCount := by
  refine ⟨fun _ => 1, fun _ _ => rfl, fun a b h => ?_⟩
  have hsize : ∀ t, size (fun _ => 1) t = t.length := fun t => by simp [size]
  rw [hsize, hsize] at h
  exact Nat.cast_le.mpr h

/-- The whole of a file, within limits of the call's own. -/
def wholeCall (limit maxTokens : Option ℚ) : Call where
  ctx := ⟨none, some lengthCount, fun _ => rfl⟩
  input := ⟨none, none, limit, maxTokens⟩

theorem wholeCall_grows (limit maxTokens : Option ℚ) :
    ∀ count, (wholeCall limit maxTokens).ctx.budgetCount = some count → Grows count := by
  intro count hcount
  obtain rfl := Option.some.inj hcount
  exact lengthCount_grows

/-- Two lines, which a budget of 145 characters does not have room for together. -/
def twoLines : Text := List.replicate 40 'a' ++ '\n' :: List.replicate 40 'b'

/-- They are read one at a time, cut by the budget. -/
theorem two_pages :
    ReadsInPages (fun _ => []) plainEncode twoLines (wholeCall none (some 145))
      [wholeCall none (some 145)] := by
  have hfirst : read (fun _ => []) plainEncode (wholeCall none (some 145)).ctx
      (wholeCall none (some 145)).input twoLines =
        .page ⟨List.replicate 40 'a', [], 1, 1, 2, some .maxTokens⟩ := by decide +kernel
  have hmade : ∀ made ∈ session (fun _ => []) plainEncode twoLines
      (wholeCall none (some 145)) [wholeCall none (some 145)],
      made.1 = wholeCall none (some 145) ∨ made.1 = (wholeCall none (some 145)).startingAt 2 := by
    intro made hmade
    rw [session, hfirst] at hmade
    rcases List.mem_cons.mp hmade with rfl | hlater
    · exact Or.inl rfl
    · obtain rfl := List.mem_singleton.mp hlater
      exact Or.inr rfl
  apply (readsInPages_iff _ _ _ _ _ (List.cons_ne_nil _ _) plainEncode_encodes ?_ ?_).mpr
  · intro made h
    rcases hmade made h with hcall | hcall <;> rw [hcall]
    · rw [Call.squeezed_iff rfl rfl, Call.unwritable_iff rfl rfl]
      -- both lines, not cut, are over the budget, and the first is within it
      refine ⟨fun h => absurd h.2.1 ?_, fun h => absurd h.1 (by decide)⟩
      show ¬ ((plainEncode ⟨twoLines, [], 1, 2, 2, none⟩).length : ℚ) ≤ 145
      decide +kernel
    · rw [Call.squeezed_iff rfl rfl, Call.unwritable_iff rfl rfl]
      refine ⟨fun h => absurd h.2.2 ?_, fun h => absurd h.1 (by decide)⟩
      show ¬ 145 < ((plainEncode
        ⟨List.replicate 40 'b', [], 2, 2, 2, some .maxTokens⟩).length : ℚ)
      decide +kernel
  · intro call hcall
    obtain rfl : call = wholeCall none (some 145) := by simpa using hcall
    exact wholeCall_grows _ _
  · intro made h
    rcases hmade made h with hcall | hcall <;> rw [hcall] <;>
      exact ⟨by decide +kernel, by decide +kernel, by decide +kernel⟩

/-- A file of one line, and a budget of just what it costs: it is refused. -/
theorem refused_though_it_fits :
    ¬ ReadsInPages (fun _ => []) plainEncode ['a'] (wholeCall none (some 66)) [] := by
  intro h
  have hvalid : (wholeCall none (some 66)).Valid ['a'] :=
    ⟨by decide, by decide, by decide⟩
  apply (h.first_call (List.cons_ne_nil _ _) hvalid plainEncode_encodes (wholeCall_grows _ _)).1
  refine ⟨66, .maxTokens, lengthCount, rfl, rfl, Or.inl (by decide), ?_, ?_⟩
  · show ((plainEncode ⟨['a'], [], 1, 1, 1, none⟩).length : ℚ) ≤ 66
    decide +kernel
  · show 66 < ((plainEncode ⟨['a'], [], 1, 1, 1, some .maxTokens⟩).length : ℚ)
    decide +kernel

end AgentBlock.FsTools
