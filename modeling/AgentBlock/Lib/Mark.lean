/-
AgentBlock/Lib/Mark.lean

Marks in a list: an element and others after it that differ from it, such as a
tag.  Two marks that begin alike never overlap, so one that stands at the head of a
list that is read around another stands before it, or at it:

    a :: u <+: w ++ a :: r  ↔  a :: u <+: w  ∨  w = [] ∧ a :: u <+: a :: r

A list is therefore split around its first mark in one way only.
-/
import AgentBlock.Lib.Split

namespace Mark

variable {α : Type*} {a : α} {u w l r l' r' : List α}

/-! ### Where a mark stands -/

theorem isPrefix_append_cons (ha : a ∉ u) :
    a :: u <+: w ++ a :: r ↔ a :: u <+: w ∨ w = [] ∧ a :: u <+: a :: r := by
  constructor
  · intro h
    rcases w with - | ⟨x, w⟩
    · exact .inr ⟨rfl, h⟩
    · obtain ⟨rfl, hu⟩ := List.cons_prefix_cons.mp (show a :: u <+: x :: (w ++ a :: r) from h)
      refine .inl (List.cons_prefix_cons.mpr ⟨rfl, ?_⟩)
      rcases List.prefix_or_prefix_of_prefix hu (List.prefix_append w (a :: r)) with hle | hle
      · exact hle
      · -- `u` would reach past the `a`
        obtain ⟨v, rfl⟩ := hle
        rcases v with - | ⟨y, v⟩
        · simp only [List.append_nil, List.prefix_rfl]
        · have hy := List.cons_prefix_cons.mp ((List.prefix_append_right_inj w).mp hu)
          exact absurd (by simp [hy.1]) ha
  · rintro (h | ⟨rfl, h⟩)
    · exact h.trans (List.prefix_append w _)
    · exact h

/-- No mark begins in a list without `a`. -/
theorem infix_append_of_not_mem (hw : a ∉ w) : a :: u <:+: w ++ r ↔ a :: u <:+: r := by
  induction w with
  | nil => rfl
  | cons x w ih =>
      obtain ⟨hx, hw⟩ : a ≠ x ∧ a ∉ w := by simpa using hw
      rw [List.cons_append, List.infix_cons_iff, ih hw]
      refine or_iff_right fun h => hx ?_
      exact (List.cons_prefix_cons.mp h).1

/-- Where two lists meet, a mark stands in the one, in the other, or across. -/
theorem infix_append_iff {m : List α} (x y : List α) : m <:+: x ++ y ↔
    m <:+: x ∨ m <:+: y ∨
      ∃ u v, m = u ++ v ∧ u ≠ [] ∧ v ≠ [] ∧ u <:+ x ∧ v <+: y := by
  constructor
  · rintro ⟨p, s, h⟩
    rw [List.append_assoc, List.append_eq_append_iff] at h
    rcases h with ⟨w, rfl, hw⟩ | ⟨w, rfl, rfl⟩
    · rcases List.append_eq_append_iff.mp hw with ⟨v, rfl, rfl⟩ | ⟨v, rfl, rfl⟩
      · exact .inl ⟨p, v, by simp⟩
      · by_cases hu : w = []
        · subst hu
          exact .inr (.inl ⟨[], s, rfl⟩)
        by_cases hv : v = []
        · subst hv
          exact .inl ⟨p, [], by simp⟩
        · exact .inr (.inr ⟨w, v, rfl, hu, hv, ⟨p, rfl⟩, ⟨s, rfl⟩⟩)
    · exact .inr (.inl ⟨w, s, by simp⟩)
  · rintro (h | h | ⟨u, v, rfl, -, -, ⟨p, rfl⟩, ⟨s, rfl⟩⟩)
    · exact h.trans List.infix_append_left
    · exact h.trans List.infix_append_right
    · exact ⟨p, s, by simp⟩

/-- What is dropped at the head of a list holds no mark. -/
theorem infix_dropWhile {p : α → Bool} (ha : p a = false) :
    a :: u <:+: l.dropWhile p ↔ a :: u <:+: l := by
  have hnot : a ∉ l.takeWhile p := by
    intro hmem
    rw [List.mem_takeWhile_imp hmem] at ha
    cases ha
  conv_rhs => rw [← List.takeWhile_append_dropWhile (p := p) (l := l)]
  exact (infix_append_of_not_mem hnot).symm

/-! ### Split around one -/

/-- A mark is the last of a list or before the last. -/
theorem prefix_of_last (ha : a ∉ u) (hr' : ¬ a :: u <:+: r')
    (h : l ++ (a :: u) ++ r = l' ++ (a :: u) ++ r') : l <+: l' := by
  rw [List.append_assoc, List.append_assoc, List.append_eq_append_iff] at h
  rcases h with ⟨w, rfl, -⟩ | ⟨w, rfl, hw⟩
  · exact List.prefix_append l w
  · rcases w with - | ⟨x, w⟩
    · simp only [List.append_nil, List.prefix_rfl]
    · have htail : u ++ r' = w ++ (a :: u ++ r) := (List.cons.inj hw).2
      refine absurd ((infix_append_of_not_mem ha).mp ?_) hr'
      rw [htail]
      exact ⟨w, r, by simp⟩

/-- A mark is the first of a list or after the first. -/
theorem prefix_of_first (ha : a ∉ u) (hl : ¬ a :: u <:+: l)
    (h : l ++ (a :: u) ++ r = l' ++ (a :: u) ++ r') : l <+: l' := by
  rw [List.append_assoc, List.append_assoc, List.append_eq_append_iff] at h
  rcases h with ⟨w, rfl, -⟩ | ⟨w, rfl, hw⟩
  · exact List.prefix_append l w
  · have hmark : a :: u <+: w ++ a :: (u ++ r) := ⟨r', hw⟩
    rcases (isPrefix_append_cons ha).mp hmark with hin | ⟨rfl, -⟩
    · exact absurd (hin.isInfix.trans List.infix_append_right) hl
    · simp only [List.append_nil, List.prefix_rfl]

/-- A list is split around its first mark in one way. -/
theorem append_inj_first (ha : a ∉ u) (hl : ¬ a :: u <:+: l) (hl' : ¬ a :: u <:+: l')
    (h : l ++ (a :: u) ++ r = l' ++ (a :: u) ++ r') : l = l' ∧ r = r' := by
  have hle := prefix_of_first ha hl h
  have hge := prefix_of_first ha hl' h.symm
  obtain rfl := hle.eq_of_length_le hge.length_le
  exact ⟨rfl, List.append_cancel_left h⟩

section

variable [DecidableEq α]

theorem once_eq_none_iff : Split.once (a :: u) l = none ↔ ¬ a :: u <:+: l := by
  rw [Split.once_eq_none]
  constructor
  · rintro h ⟨p, s, rfl⟩
    refine h p.length (by simp) ?_
    rw [List.append_assoc, List.drop_left]
    exact List.prefix_append _ _
  · intro h q _ hq
    exact h (hq.isInfix.trans (List.drop_suffix q l).isInfix)

theorem once_eq_some_iff (ha : a ∉ u) {p : List α × List α} : Split.once (a :: u) l = some p ↔
    l = p.1 ++ (a :: u) ++ p.2 ∧ ¬ a :: u <:+: p.1 := by
  have hof : ∀ {p : List α × List α}, Split.once (a :: u) l = some p →
      l = p.1 ++ (a :: u) ++ p.2 ∧ ¬ a :: u <:+: p.1 := by
    intro p h
    obtain ⟨heq, hfirst⟩ := Split.of_once h
    refine ⟨heq, ?_⟩
    rintro ⟨x, y, hxy⟩
    refine hfirst x.length (by simp [← hxy]) ?_
    rw [heq, ← hxy, List.append_assoc, List.append_assoc, List.append_assoc, List.drop_left]
    exact List.prefix_append _ _
  refine ⟨hof, ?_⟩
  rintro ⟨heq, hfirst⟩
  cases h : Split.once (a :: u) l with
  | none => exact absurd (heq ▸ List.infix_append _ _ _) (once_eq_none_iff.mp h)
  | some q =>
      obtain ⟨hq, hfirst'⟩ := hof h
      obtain ⟨h1, h2⟩ := append_inj_first ha hfirst' hfirst (hq.symm.trans heq)
      exact congrArg some (Prod.ext h1 h2)

end

end Mark
