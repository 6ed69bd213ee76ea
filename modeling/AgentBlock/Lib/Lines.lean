/-
AgentBlock/Lib/Lines.lean

The lines of a text, and a text read from its first marked line.

A line ends at a newline, or at a carriage return before one.  What stands behind
the first mark of the lines is what stands behind the first mark of the text, up
to the end of that line (`findMarked`).
-/
import AgentBlock.Lib.Split

namespace Lines

/-- A line without the carriage return before its newline. -/
def stripReturn (line : List Char) : List Char :=
  if line.getLast? = some '\r' then line.dropLast else line

/-- The lines of a text.  One that ends with a newline has none behind it. -/
def lines (text : List Char) : List (List Char) :=
  let pieces := text.splitOn '\n'
  pieces.dropLast.map stripReturn ++ pieces.getLast?.toList.filter (· ≠ [])

/-- The first line of a text, and none of what is behind it. -/
def firstLine (text : List Char) : List Char :=
  match Split.first '\n' text with
  | none => text
  | some (line, _) => stripReturn line

section

variable {text line rest mark : List Char}

theorem lines_of_not_mem (h : '\n' ∉ text) (hne : text ≠ []) : lines text = [text] := by
  have hpieces : text.splitOn '\n' = [text] := List.splitOn_eq_singleton h
  simp [lines, hpieces, hne]

theorem lines_append (h : '\n' ∉ line) :
    lines (line ++ '\n' :: rest) = stripReturn line :: lines rest := by
  obtain ⟨piece, pieces, hrest⟩ := List.exists_cons_of_ne_nil (List.splitOn_ne_nil '\n' rest)
  rw [lines, lines, List.splitOn_append_cons_self_of_not_mem h, hrest]
  rfl

theorem firstLine_of_not_mem (h : '\n' ∉ text) : firstLine text = text := by
  rw [firstLine, Split.first_eq_none.mpr h]

theorem firstLine_append (h : '\n' ∉ line) (rest : List Char) :
    firstLine (line ++ '\n' :: rest) = stripReturn line := by
  rw [firstLine, Split.first_append rest h]

/-- A text is of one line, or it goes on behind its first. -/
theorem one_or_more (text : List Char) :
    '\n' ∉ text ∨ ∃ line rest, '\n' ∉ line ∧ text = line ++ '\n' :: rest := by
  by_cases h : '\n' ∈ text
  · obtain ⟨line, rest, htext, hline⟩ := List.eq_append_cons_of_mem h
    exact .inr ⟨line, rest, hline, htext⟩
  · exact .inl h

theorem stripReturn_start (line : List Char) : stripReturn line <+: line := by
  rw [stripReturn]
  split
  · exact List.dropLast_prefix line
  · exact List.prefix_rfl

theorem stripReturn_eq_self : stripReturn line = line ↔ line.getLast? ≠ some '\r' := by
  rw [stripReturn]
  split
  · rename_i h
    refine iff_of_false (fun heq => ?_) fun hne => hne h
    have hne : line ≠ [] := fun hnil => by rw [hnil] at h; cases h
    have hlength := congrArg List.length heq
    rw [List.length_dropLast] at hlength
    exact absurd hlength (Nat.sub_lt (List.length_pos_of_ne_nil hne) Nat.one_pos).ne
  · exact iff_of_true rfl ‹_›

/-- A carriage return is stripped off what is behind, if not all of it is before. -/
theorem stripReturn_append (h : mark.getLast? ≠ some '\r') (line : List Char) :
    stripReturn (mark ++ line) = mark ++ stripReturn line := by
  rcases List.eq_nil_or_concat line with rfl | ⟨line, c, rfl⟩
  · simp [stripReturn, h]
  · rw [List.concat_eq_append, ← List.append_assoc, stripReturn, stripReturn,
      List.getLast?_append_of_ne_nil _ (List.cons_ne_nil _ _), List.dropLast_concat,
      List.dropLast_concat, List.getLast?_append_of_ne_nil _ (List.cons_ne_nil _ _)]
    split
    · rfl
    · exact List.append_assoc _ _ _

/-- **The first marked line** of a text is where its first mark is. -/
theorem findMarked {c : Char} {tail : List Char} (hmark : mark = c :: tail) (honce : c ∉ tail)
    (hreturn : '\r' ∉ mark) (hnewline : '\n' ∉ mark) (rest : List Char) {before : List Char}
    (hbefore : ¬ mark <:+: before) :
    ((lines (before ++ (mark ++ rest))).findSome? fun line =>
      (Split.once mark line).map Prod.snd) = some (firstLine rest) := by
  have hne : mark ≠ [] := hmark ▸ List.cons_ne_nil c tail
  -- by the lines that are before the mark
  induction hn : before.length using Nat.strong_induction_on generalizing before with
  | _ n ih =>
      rcases one_or_more before with hline | ⟨line, more, hline, rfl⟩
      · rcases one_or_more rest with hrest | ⟨last, more, hlast, rfl⟩
        · rw [lines_of_not_mem (by simp [hline, hrest, hnewline]) (by simp [hne]),
            firstLine_of_not_mem hrest, List.findSome?_cons,
            Split.once_append hmark honce rest hbefore]
          rfl
        · have hend : (before ++ mark).getLast? ≠ some '\r' := by
            rw [List.getLast?_append_of_ne_nil _ hne]
            exact fun h => hreturn (List.mem_of_getLast? h)
          rw [← List.append_assoc, ← List.append_assoc,
            lines_append (by simp [hline, hlast, hnewline]), firstLine_append hlast,
            List.findSome?_cons, stripReturn_append hend, List.append_assoc,
            Split.once_append hmark honce _ hbefore]
          rfl
      · have hstrip : ¬ mark <:+: stripReturn line := fun h =>
          hbefore (h.trans
            ((stripReturn_start line).isInfix.trans (List.prefix_append _ _).isInfix))
        have hmore : ¬ mark <:+: more := fun h =>
          hbefore (h.trans ((List.suffix_cons _ more).trans (List.suffix_append _ _)).isInfix)
        rw [List.append_assoc, List.cons_append, lines_append hline, List.findSome?_cons,
          Split.once_of_not_infix hstrip]
        exact ih _ (by rw [← hn, List.length_append, List.length_cons]; omega) hmore rfl

end

end Lines
