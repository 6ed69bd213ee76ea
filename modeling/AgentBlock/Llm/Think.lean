/-
AgentBlock/Llm/Think.lean

Reasoning that arrived inside a text, between tags, and the answer around it.

`split_think` takes what stands between the first opening tag and the last closing
one.  In a text whose tags are nested that is the reasoning where there is one span,
and with two of them it is also the answer between the two.

Main results:

* `nested_split_iff` — the split of a nested text is right exactly if it has at most
  one span;
* `separates_iff` — when a split separates the reasoning from the answer.
-/
import AgentBlock.Lib.Mark
import AgentBlock.Llm.Parse

namespace AgentBlock.Llm.Openai

open Split (trim)
open Numeral (isSpace)

/-- `<think>`. -/
def openTag : List Char := "<think>".toList

/-- `</think>`. -/
def closeTag : List Char := "</think>".toList

/-- The two values of `split_think`: no reasoning, and the text, where no tag closes. -/
def splitValues (text : List Char) : Option (List Char) × List Char :=
  match splitThink text with
  | some (thinking, rest) => (some thinking, rest)
  | none => (none, text)

/-! ### What a text says -/

/-- A text whose tags are nested: what stands inside its spans, what stands outside
them, and how many they are. -/
inductive Nested : List Char → List Char → List Char → ℕ → Prop
  | nil : Nested [] [] [] 0
  | char {c : Char} {text inside outside : List Char} {spans : ℕ} :
      ¬ openTag <+: c :: text → ¬ closeTag <+: c :: text →
      Nested text inside outside spans →
      Nested (c :: text) inside (c :: outside) spans
  | span {body bodyIn bodyOut text inside outside : List Char} {bodySpans spans : ℕ} :
      Nested body bodyIn bodyOut bodySpans →
      Nested text inside outside spans →
      Nested (openTag ++ body ++ closeTag ++ text) (body ++ inside) outside (spans + 1)

/-- Reasoning and answer of a text are told apart. -/
structure Separates (text : List Char) (v : Option (List Char) × List Char) : Prop where
  nested : ∀ inside outside spans, Nested text inside outside spans →
    trim isSpace (v.1.getD []) = trim isSpace inside ∧
      v.2.dropWhile isSpace = outside.dropWhile isSpace
  unopened : ∀ before after, text = before ++ closeTag ++ after → ¬ openTag <:+: before →
    ∃ more rest, text = before ++ more ++ closeTag ++ rest ∧
      v = (some (trim isSpace (before ++ more)), rest.dropWhile isSpace)
  noClose : ¬ closeTag <:+: v.2
  again : splitValues v.2 = (none, v.2)
  unclosed : ¬ closeTag <:+: text → v = (none, text)

/-- No tag closes before the first that opens, nor where what stands before that
and what stands after the last that closes meet; and there is at most one span. -/
structure Separable (text : List Char) : Prop where
  clean : ∀ before between after,
    text = before ++ openTag ++ between ++ closeTag ++ after →
    ¬ openTag <:+: before → ¬ closeTag <:+: after →
    ¬ closeTag <:+: before ∧
      ∀ u v, closeTag = u ++ v → u ≠ [] → v ≠ [] → u <:+ before → ¬ v <+: after
  single : ∀ inside outside spans, Nested text inside outside spans → spans ≤ 1

/-! ### Tags -/

theorem openTag_eq : openTag = '<' :: "think>".toList := rfl

theorem closeTag_reverse : closeTag.reverse = '>' :: "kniht/<".toList := by decide

theorem not_mem_openTag : '<' ∉ "think>".toList := by decide

theorem not_mem_closeTag : '<' ∉ "/think>".toList := by decide

theorem not_openTag_closeTag {s : List Char} : ¬ openTag <+: closeTag ++ s := by
  intro h
  have h2 := (List.cons_prefix_cons.mp h).2
  exact absurd (List.cons_prefix_cons.mp h2).1 (by decide)

theorem not_closeTag_openTag {s : List Char} : ¬ closeTag <+: openTag ++ s := by
  intro h
  have h2 := (List.cons_prefix_cons.mp h).2
  exact absurd (List.cons_prefix_cons.mp h2).1 (by decide)

theorem closeTag_infix_dropWhile {l : List Char} :
    closeTag <:+: l.dropWhile isSpace ↔ closeTag <:+: l :=
  Mark.infix_dropWhile (by decide)


/-! ### What the split takes -/

theorem once_closeTag_eq_none {text : List Char} :
    Split.once closeTag.reverse text.reverse = none ↔ ¬ closeTag <:+: text := by
  rw [closeTag_reverse, Mark.once_eq_none_iff, ← closeTag_reverse, List.reverse_infix]

theorem once_closeTag_eq_some {text before after : List Char} :
    Split.once closeTag.reverse text.reverse = some (after.reverse, before.reverse) ↔
      text = before ++ closeTag ++ after ∧ ¬ closeTag <:+: after := by
  rw [closeTag_reverse, Mark.once_eq_some_iff (by decide), ← closeTag_reverse, List.reverse_infix]
  refine and_congr_left fun _ => ?_
  rw [← List.reverse_append, ← List.reverse_append, List.reverse_inj, List.append_assoc]

theorem once_openTag_eq_none {text : List Char} :
    Split.once openTag text = none ↔ ¬ openTag <:+: text := by
  rw [openTag_eq]
  exact Mark.once_eq_none_iff

theorem once_openTag_eq_some {text left right : List Char} :
    Split.once openTag text = some (left, right) ↔
      text = left ++ openTag ++ right ∧ ¬ openTag <:+: left := by
  rw [openTag_eq]
  exact Mark.once_eq_some_iff not_mem_openTag

/-- Where no tag closes. -/
theorem splitValues_unclosed {text : List Char} (h : ¬ closeTag <:+: text) :
    splitValues text = (none, text) := by
  have hnone : splitThink text = none := by
    show (Split.once closeTag.reverse text.reverse).map _ = none
    rw [once_closeTag_eq_none.mpr h]
    rfl
  rw [splitValues, hnone]

/-- Where no tag opens before the last that closes. -/
theorem splitValues_unopened {text before after : List Char}
    (htext : text = before ++ closeTag ++ after) (hafter : ¬ closeTag <:+: after)
    (hbefore : ¬ openTag <:+: before) :
    splitValues text = (some (trim isSpace before), after.dropWhile isSpace) := by
  have hsome : splitThink text = some (trim isSpace before, after.dropWhile isSpace) := by
    show (Split.once closeTag.reverse text.reverse).map _ = _
    rw [once_closeTag_eq_some.mpr ⟨htext, hafter⟩]
    simp only [Option.map_some, List.reverse_reverse]
    rw [show Split.once "<think>".toList before = none from once_openTag_eq_none.mpr hbefore]
  rw [splitValues, hsome]

/-- Where one does. -/
theorem splitValues_opened {text left right after : List Char}
    (htext : text = left ++ openTag ++ right ++ closeTag ++ after)
    (hafter : ¬ closeTag <:+: after) (hleft : ¬ openTag <:+: left) :
    splitValues text = (some (trim isSpace right), (left ++ after).dropWhile isSpace) := by
  have hopen : Split.once "<think>".toList (left ++ openTag ++ right) = some (left, right) :=
    once_openTag_eq_some.mpr ⟨rfl, hleft⟩
  have hsome : splitThink text = some (trim isSpace right, (left ++ after).dropWhile isSpace) := by
    show (Split.once closeTag.reverse text.reverse).map _ = _
    rw [once_closeTag_eq_some.mpr ⟨htext, hafter⟩]
    simp only [Option.map_some, List.reverse_reverse]
    rw [hopen]
  rw [splitValues, hsome]

/-- The three texts there are. -/
theorem text_cases (text : List Char) :
    ¬ closeTag <:+: text ∨
    (∃ before after, text = before ++ closeTag ++ after ∧
      ¬ closeTag <:+: after ∧ ¬ openTag <:+: before) ∨
    ∃ left right after, text = left ++ openTag ++ right ++ closeTag ++ after ∧
      ¬ closeTag <:+: after ∧ ¬ openTag <:+: left := by
  by_cases hclose : closeTag <:+: text
  · have hne : Split.once closeTag.reverse text.reverse ≠ none :=
      fun hnone => once_closeTag_eq_none.mp hnone hclose
    obtain ⟨⟨after, before⟩, hlast⟩ := Option.ne_none_iff_exists'.mp hne
    rw [← List.reverse_reverse after, ← List.reverse_reverse before] at hlast
    obtain ⟨htext, hafter⟩ := once_closeTag_eq_some.mp hlast
    cases hopen : Split.once openTag before.reverse with
    | none =>
        exact .inr (.inl ⟨_, _, htext, hafter, once_openTag_eq_none.mp hopen⟩)
    | some p =>
        obtain ⟨hbefore, hleft⟩ := once_openTag_eq_some.mp hopen
        exact .inr (.inr ⟨p.1, p.2, _, by rw [htext, hbefore], hafter, hleft⟩)
  · exact .inl hclose

/-! ### Texts whose tags are nested -/

/-- A text of no span has no tags. -/
theorem Nested.of_zero {text inside outside : List Char} (h : Nested text inside outside 0) :
    inside = [] ∧ outside = text ∧ ¬ closeTag <:+: text := by
  generalize hspans : 0 = spans at h
  induction h with
  | nil => exact ⟨rfl, rfl, by decide⟩
  | char _ hclose _ ih =>
      obtain ⟨hin, hout, hnot⟩ := ih hspans
      refine ⟨hin, congrArg _ hout, fun hinfix => ?_⟩
      exact (List.infix_cons_iff.mp hinfix).elim hclose hnot
  | span => cases hspans

/-- Any other is read around its first span. -/
theorem Nested.of_succ {text inside outside : List Char} {n : ℕ}
    (h : Nested text inside outside (n + 1)) :
    ∃ left body rest restIn restOut, text = left ++ openTag ++ body ++ closeTag ++ rest ∧
      inside = body ++ restIn ∧ outside = left ++ restOut ∧ Nested rest restIn restOut n ∧
      ¬ openTag <:+: left := by
  generalize hspans : n + 1 = spans at h
  induction h with
  | nil => cases hspans
  | @char c text inside outside spans hopen _ _ ih =>
      obtain ⟨left, body, rest, restIn, restOut, rfl, hin, rfl, hrest, hleft⟩ := ih hspans
      refine ⟨c :: left, body, rest, restIn, restOut, rfl, hin, rfl, hrest, fun hinfix => ?_⟩
      rcases List.infix_cons_iff.mp hinfix with hhere | hin
      · refine hopen (hhere.trans ?_)
        exact ⟨openTag ++ body ++ closeTag ++ rest, by simp⟩
      · exact hleft hin
  | @span body bodyIn bodyOut rest inside outside _ spans _ hrest _ _ =>
      obtain rfl := Nat.succ.inj hspans
      exact ⟨[], body, rest, inside, outside, by simp, rfl, rfl, hrest, by decide⟩

/-- The characters of a text that are no whitespace. -/
def solid (text : List Char) : ℕ := text.countP fun c => !isSpace c

theorem solid_append (s t : List Char) : solid (s ++ t) = solid s + solid t := List.countP_append

theorem solid_openTag : solid openTag = 7 := by decide

theorem solid_closeTag : solid closeTag = 8 := by decide

theorem solid_dropWhile (s : List Char) : solid (s.dropWhile isSpace) = solid s := by
  induction s with
  | nil => rfl
  | cons c s ih =>
      by_cases hc : isSpace c = true
      · rw [List.dropWhile_cons_of_pos hc, ih]
        simp [solid, hc]
      · rw [List.dropWhile_cons_of_neg hc]

theorem solid_trim (s : List Char) : solid (trim isSpace s) = solid s := by
  have hreverse : ∀ t : List Char, solid t.reverse = solid t := fun t => List.countP_reverse
  rw [trim, List.rdropWhile, hreverse, solid_dropWhile, hreverse, solid_dropWhile]

/-- A text is what stands inside its spans, what stands outside, and their tags. -/
theorem Nested.solid_eq {text inside outside : List Char} {spans : ℕ}
    (h : Nested text inside outside spans) :
    solid text = solid inside + solid outside + 15 * spans := by
  induction h with
  | nil => rfl
  | @char c text inside outside spans _ _ _ ih =>
      have htext : solid (c :: text) = solid [c] + solid text := solid_append [c] text
      have hout : solid (c :: outside) = solid [c] + solid outside := solid_append [c] outside
      rw [htext, hout, ih]
      omega
  | span _ _ _ ih =>
      simp only [solid_append, solid_openTag, solid_closeTag, ih]
      omega

/-- What is trimmed has nothing to trim. -/
theorem trim_trim (s : List Char) : trim isSpace (trim isSpace s) = trim isSpace s := by
  have hdrop : (trim isSpace s).dropWhile isSpace = trim isSpace s := by
    apply List.dropWhile_eq_self_iff.mpr
    intro hpos
    have hsub : trim isSpace s <+: s.dropWhile isSpace := List.rdropWhile_prefix _ _
    rw [hsub.getElem]
    exact List.dropWhile_get_zero_not _ _ _
  show ((trim isSpace s).dropWhile isSpace).rdropWhile isSpace = _
  rw [hdrop]
  exact List.rdropWhile_idempotent _ _

/-- **The split of a nested text** is right exactly if it has at most one span. -/
theorem nested_split_iff {text inside outside : List Char} {spans : ℕ}
    (h : Nested text inside outside spans) :
    trim isSpace ((splitValues text).1.getD []) = trim isSpace inside ∧
      (splitValues text).2.dropWhile isSpace = outside.dropWhile isSpace ↔ spans ≤ 1 := by
  constructor
  · rintro ⟨hin, hout⟩
    have hcount := h.solid_eq
    replace hin := congrArg solid hin
    replace hout := congrArg solid hout
    simp only [solid_trim, solid_dropWhile] at hin hout
    rcases text_cases text with hclose | ⟨before, after, htext, hafter, hbefore⟩ |
      ⟨left, right, after, htext, hafter, hleft⟩
    · rw [splitValues_unclosed hclose] at hin hout
      replace hin : 0 = solid inside := hin
      replace hout : solid text = solid outside := hout
      omega
    · -- a tag more than there are inside and outside
      rw [splitValues_unopened htext hafter hbefore] at hin hout
      replace hin : solid (trim isSpace before) = solid inside := hin
      replace hout : solid (after.dropWhile isSpace) = solid outside := hout
      rw [solid_trim] at hin
      rw [solid_dropWhile] at hout
      rw [htext] at hcount
      simp only [solid_append, solid_closeTag] at hcount
      omega
    · -- the two tags of one span
      rw [splitValues_opened htext hafter hleft] at hin hout
      replace hin : solid (trim isSpace right) = solid inside := hin
      replace hout : solid ((left ++ after).dropWhile isSpace) = solid outside := hout
      rw [solid_trim] at hin
      rw [solid_dropWhile, solid_append] at hout
      rw [htext] at hcount
      simp only [solid_append, solid_openTag, solid_closeTag] at hcount
      omega
  · intro hspans
    obtain rfl | rfl : spans = 0 ∨ spans = 1 := by omega
    · obtain ⟨rfl, rfl, hclose⟩ := h.of_zero
      rw [splitValues_unclosed hclose]
      exact ⟨rfl, rfl⟩
    · obtain ⟨left, body, rest, restIn, restOut, htext, rfl, rfl, hrest, hleft⟩ := h.of_succ
      obtain ⟨rfl, rfl, hclose⟩ := hrest.of_zero
      rw [splitValues_opened htext hclose hleft, List.append_nil]
      refine ⟨trim_trim body, ?_⟩
      exact List.dropWhile_idempotent isSpace (left ++ restOut)

/-! ### When the split is right -/

/-- What is before the first tag that opens and what is after the last that closes
hold no tag that closes, and form none. -/
theorem not_closeTag_append_iff {left after : List Char} (hafter : ¬ closeTag <:+: after) :
    ¬ closeTag <:+: left ++ after ↔ ¬ closeTag <:+: left ∧
      ∀ u v, closeTag = u ++ v → u ≠ [] → v ≠ [] → u <:+ left → ¬ v <+: after := by
  rw [Mark.infix_append_iff, not_or, not_or]
  refine and_congr_right fun _ => (and_iff_right hafter).trans ?_
  constructor
  · exact fun h u v huv hu hv hleft hright => h ⟨u, v, huv, hu, hv, hleft, hright⟩
  · exact fun h ⟨u, v, huv, hu, hv, hleft, hright⟩ => h u v huv hu hv hleft hright

/-- Of a tag that closes and one that opens, each the first of its kind or before
the first, one is there for the other. -/
theorem tag_before_tag {before after left right : List Char}
    (h : before ++ closeTag ++ after = left ++ openTag ++ right) :
    openTag <:+: before ∨ closeTag <:+: left := by
  rw [List.append_assoc, List.append_assoc, List.append_eq_append_iff] at h
  rcases h with ⟨w, rfl, hw⟩ | ⟨w, rfl, hw⟩
  · have hclose : closeTag <+: w ++ openTag ++ right := ⟨after, by rw [List.append_assoc, hw]⟩
    rw [List.append_assoc] at hclose
    rcases (Mark.isPrefix_append_cons not_mem_closeTag).mp hclose with hin | ⟨-, hin⟩
    · exact .inr (hin.isInfix.trans List.infix_append_right)
    · exact absurd hin not_closeTag_openTag
  · have hopen : openTag <+: w ++ closeTag ++ after := ⟨right, by rw [List.append_assoc, hw]⟩
    rw [List.append_assoc] at hopen
    rcases (Mark.isPrefix_append_cons not_mem_openTag).mp hopen with hin | ⟨-, hin⟩
    · exact .inl (hin.isInfix.trans List.infix_append_right)
    · exact absurd hin not_openTag_closeTag

/-- **Reasoning and answer are told apart** exactly if the text is separable.  The
text is cut once, from the first tag that opens to the last that closes, so a second
span, or a closing tag that is ahead of the first or made by the cut, is misread. -/
theorem separates_iff (text : List Char) : Separates text (splitValues text) ↔ Separable text := by
  constructor
  · intro h
    constructor
    case clean =>
      intro before between after htext hbefore hafter
      have hclose := h.noClose
      rw [splitValues_opened htext hafter hbefore] at hclose
      replace hclose : ¬ closeTag <:+: (before ++ after).dropWhile isSpace := hclose
      rw [closeTag_infix_dropWhile] at hclose
      exact (not_closeTag_append_iff hafter).mp hclose
    case single =>
      exact fun inside outside spans hnested =>
        (nested_split_iff hnested).mp (h.nested inside outside spans hnested)
  · intro h
    have hclose : ¬ closeTag <:+: (splitValues text).2 := by
      rcases text_cases text with hclose | ⟨before, after, htext, hafter, hbefore⟩ |
        ⟨left, right, after, htext, hafter, hleft⟩
      · rw [splitValues_unclosed hclose]
        exact hclose
      · rw [splitValues_unopened htext hafter hbefore]
        exact fun hinfix => hafter (closeTag_infix_dropWhile.mp hinfix)
      · rw [splitValues_opened htext hafter hleft]
        have hclean := (not_closeTag_append_iff hafter).mpr
          (h.clean left right after htext hleft hafter)
        exact fun hinfix => hclean (closeTag_infix_dropWhile.mp hinfix)
    constructor
    case nested =>
      exact fun inside outside spans hnested =>
        (nested_split_iff hnested).mpr (h.single inside outside spans hnested)
    case noClose => exact hclose
    case again => exact splitValues_unclosed hclose
    case unclosed => exact splitValues_unclosed
    case unopened =>
      intro before after htext hbefore
      rcases text_cases text with hnone | ⟨before', after', htext', hafter', hbefore'⟩ |
        ⟨left, right, after', htext', hafter', hleft⟩
      · exact absurd (htext ▸ List.infix_append _ _ _) hnone
      -- both texts end in the last closing tag, so one is the beginning of the other
      · obtain ⟨more, rfl⟩ :=
          Mark.prefix_of_last not_mem_closeTag hafter' (htext.symm.trans htext')
        exact ⟨more, after', htext', splitValues_unopened htext' hafter' hbefore'⟩
      · have hleftClose := (h.clean left right after' htext' hleft hafter').1
        rw [List.append_assoc (left ++ openTag), List.append_assoc (left ++ openTag)] at htext'
        rcases tag_before_tag (htext.symm.trans htext') with hin | hin
        · exact absurd hin hbefore
        · exact absurd hin hleftClose

/-- `<think>a</think>b<think>c</think>d`. -/
def twoSpans : List Char :=
  openTag ++ ['a'] ++ closeTag ++ ('b' :: (openTag ++ ['c'] ++ closeTag ++ ['d']))

theorem nested_twoSpans : Nested twoSpans ['a', 'c'] ['b', 'd'] 2 := by
  have hplain : ∀ c, c ≠ '<' → Nested [c] [] [c] 0 := fun c hc =>
    .char (fun h => hc (List.cons_prefix_cons.mp h).1.symm)
      (fun h => hc (List.cons_prefix_cons.mp h).1.symm) .nil
  apply Nested.span (hplain 'a' (by decide))
  apply Nested.char (by decide) (by decide)
  exact Nested.span (hplain 'c' (by decide)) (hplain 'd' (by decide))

/-- **The answer between two spans** is taken for reasoning, and a tag that closes
with none open is left in the answer. -/
theorem answer_between_spans_is_reasoning :
    splitValues twoSpans = (some ("a</think>b<think>c".toList), ['d']) ∧
      ¬ Separates twoSpans (splitValues twoSpans) ∧
      splitValues "a</think>b<think>c</think>d".toList =
        (some ['c'], "a</think>bd".toList) := by
  refine ⟨by decide, fun h => ?_, by decide⟩
  have hin := (h.nested _ _ _ nested_twoSpans).1
  exact absurd hin (by decide)

end AgentBlock.Llm.Openai
