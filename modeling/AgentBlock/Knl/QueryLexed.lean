/-
AgentBlock/Knl/QueryLexed.lean

How a statement is cut into lexemes, and how it is cut once its parameters are
replaced.

What a lexeme is depends on the text behind it by one byte at most
(`reads_congr`), so a replacement that begins with a byte no lexeme goes on with
(`Sep`) leaves every other lexeme as it was (`lexemes_rewritten`).
-/
import AgentBlock.Knl.Query
import Mathlib.Data.List.TakeWhile

namespace AgentBlock.Knl.Query

open Lexemes

/-! ### How far a lexeme goes -/

theorem skipBlock_le (bs : Bytes) : (skipBlock bs).1 ≤ bs.length := by
  induction bs with
  | nil => exact Nat.le_refl 0
  | cons b bs ih =>
      rw [skipBlock]
      split
      · next h =>
        obtain ⟨c, bs⟩ | ⟨_⟩ := bs
        · simp at h
        · simp
      · exact Nat.succ_le_succ ih

theorem skipQuoted_le (close : UInt8) (doubles : Bool) (bs : Bytes) :
    (skipQuoted close doubles bs).1 ≤ bs.length := by
  induction bs using skipQuoted.induct close doubles with
  | case1 => simp [skipQuoted]
  | case2 b => simp [skipQuoted]
  | case3 c bs hdoubles ih => simp [skipQuoted, hdoubles, ih]
  | case4 c bs hdoubles => simp [skipQuoted, hdoubles]
  | case5 b c bs hb ih =>
      rw [skipQuoted, if_neg hb]
      exact Nat.succ_le_succ ih

theorem length_takeWhile_le (p : UInt8 → Bool) (bs : Bytes) :
    (bs.takeWhile p).length ≤ bs.length :=
  (List.takeWhile_prefix p).length_le


theorem next_bounded : Bounded next := by
  intro a as
  have htail : as.tail.length ≤ as.length := List.length_tail ▸ Nat.sub_le _ _
  rw [next]
  split
  · exact Nat.zero_le _
  split
  next h =>
    obtain ⟨b, bs, rfl⟩ := List.exists_cons_of_ne_nil (l := as) (by rintro rfl; simp at h)
    exact Nat.succ_le_succ (length_takeWhile_le _ _)
  split
  next h =>
    obtain ⟨b, bs, rfl⟩ := List.exists_cons_of_ne_nil (l := as) (by rintro rfl; simp at h)
    exact Nat.succ_le_succ (skipBlock_le _)
  split
  · exact Nat.zero_le _
  split
  · exact skipQuoted_le _ _ _
  split
  · exact skipQuoted_le _ _ _
  split
  · exact length_takeWhile_le _ _
  split
  · split
    · exact Nat.zero_le _
    · exact length_takeWhile_le _ _
  split
  · exact length_takeWhile_le _ _
  · exact Nat.zero_le _

/-! ### What a lexeme depends on -/

/-- The lexeme goes on to the end of the text, or of its line. -/
def Lexeme.isOpen : Lexeme → Bool
  | .lineComment | .blockComment false | .quoted false => true
  | _ => false

/-- A byte that no closed lexeme goes on with. -/
structure Sep (c : UInt8) : Prop where
  ident : isIdent c = false
  dash : c ≠ ascii '-'
  star : c ≠ ascii '*'
  quote : c ≠ ascii '\'' ∧ c ≠ ascii '"' ∧ c ≠ ascii '`'

instance (c : UInt8) : Decidable (Sep c) :=
  decidable_of_iff (isIdent c = false ∧ c ≠ ascii '-' ∧ c ≠ ascii '*' ∧
      (c ≠ ascii '\'' ∧ c ≠ ascii '"' ∧ c ≠ ascii '`'))
    ⟨fun h => ⟨h.1, h.2.1, h.2.2.1, h.2.2.2⟩, fun h => ⟨h.ident, h.dash, h.star, h.quote⟩⟩

theorem isDigit_of_not_isIdent {c : UInt8} (h : isIdent c = false) : isDigit c = false := by
  simp only [isIdent, Bool.or_eq_false_iff] at h
  exact h.1.1.2

/-- What begins with `rest'` goes behind a `kind` as what begins with `rest`
does. -/
def Alike (kind : Lexeme) (rest rest' : Bytes) : Prop :=
  rest'.head? = rest.head? ∨ kind.isOpen = false ∧ ∃ c, rest'.head? = some c ∧ Sep c

/-- A run as long as `as` is `as`. -/
theorem run_eq {p : UInt8 → Bool} {as rest : Bytes}
    (h : ((as ++ rest).takeWhile p).length = as.length) : (as ++ rest).takeWhile p = as :=
  (List.prefix_of_prefix_length_le (List.takeWhile_prefix p) (List.prefix_append as rest)
    (Nat.le_of_eq h)).eq_of_length h

theorem run_all {p : UInt8 → Bool} {as rest : Bytes}
    (h : ((as ++ rest).takeWhile p).length = as.length) : ∀ c ∈ as, p c = true := fun c hc =>
  List.mem_takeWhile_imp (p := p) (l := as ++ rest) (by rwa [run_eq h])

/-- A run ends before what is not of it. -/
theorem run_stops {p : UInt8 → Bool} {as rest : Bytes}
    (h : ((as ++ rest).takeWhile p).length = as.length) :
    ∀ c, rest.head? = some c → p c = false := by
  intro c hc
  obtain ⟨cs, rfl⟩ : ∃ cs, rest = c :: cs := by
    cases rest with
    | nil => cases hc
    | cons d ds => exact ⟨ds, by rw [Option.some.inj hc]⟩
  have hrun := run_eq h
  rw [List.takeWhile_append_of_pos (run_all h)] at hrun
  by_contra hp
  rw [Bool.not_eq_false] at hp
  rw [List.takeWhile_cons_of_pos hp] at hrun
  simp at hrun

/-- A run that ended where `rest` begins ends where `rest'` does. -/
theorem run_congr {p : UInt8 → Bool} {as rest rest' : Bytes}
    (h : ((as ++ rest).takeWhile p).length = as.length)
    (hrest : ∀ c, rest'.head? = some c → rest.head? = some c ∨ p c = false) :
    (as ++ rest').takeWhile p = as := by
  rw [List.takeWhile_append_of_pos (run_all h)]
  suffices hstop : rest'.takeWhile p = [] by rw [hstop, List.append_nil]
  cases rest' with
  | nil => rfl
  | cons c cs =>
      have hc : p c = false := (hrest c rfl).elim (run_stops h c) id
      exact List.takeWhile_cons_of_neg (by rw [hc]; exact nofun)

theorem skipBlock_ne_zero {b : UInt8} {bs : Bytes} : (skipBlock (b :: bs)).1 ≠ 0 := by
  rw [skipBlock]
  split
  · exact nofun
  · exact nofun

/-- An open comment takes all there is. -/
theorem skipBlock_open {bs : Bytes} (h : (skipBlock bs).2 = false) :
    (skipBlock bs).1 = bs.length := by
  induction bs with
  | nil => rfl
  | cons b bs ih =>
      rw [skipBlock] at h ⊢
      split at h
      · cases h
      · next hclose =>
        rw [if_neg hclose]
        exact congrArg Nat.succ (ih h)

/-- A closed comment is closed whatever follows. -/
theorem skipBlock_congr {as rest rest' : Bytes} (h : skipBlock (as ++ rest) = (as.length, true)) :
    skipBlock (as ++ rest') = (as.length, true) := by
  induction as with
  | nil =>
      cases rest with
      | nil => cases h
      | cons b bs => exact absurd (congrArg Prod.fst h) skipBlock_ne_zero
  | cons b as ih =>
      have hcons : ∀ tail, skipBlock (b :: as ++ tail) =
          if b = ascii '*' ∧ (as ++ tail).head? = some (ascii '/') then (2, true)
          else ((skipBlock (as ++ tail)).1 + 1, (skipBlock (as ++ tail)).2) := fun _ => rfl
      rw [hcons] at h ⊢
      cases as with
      | nil =>
          split at h
          · cases h
          · cases rest with
            | nil => cases h
            | cons c cs =>
                exact absurd (Nat.succ.inj (congrArg Prod.fst h)) skipBlock_ne_zero
      | cons c as =>
          rw [show (c :: as ++ rest').head? = (c :: as ++ rest).head? from rfl]
          split at h
          · next hclose =>
            rw [if_pos hclose]
            exact h
          · next hclose =>
            rw [if_neg hclose, ih]
            · rfl
            · exact Prod.ext (Nat.succ.inj (Prod.mk.inj h).1) (Prod.mk.inj h).2

section

variable {close : UInt8} {doubles : Bool}

theorem skipQuoted_ne_zero {b : UInt8} {bs : Bytes} :
    (skipQuoted close doubles (b :: bs)).1 ≠ 0 := by
  cases bs with
  | nil => exact nofun
  | cons c bs =>
      rw [skipQuoted]
      repeat' split
      all_goals exact nofun

/-- An open run takes all there is. -/
theorem skipQuoted_open {bs : Bytes} (h : (skipQuoted close doubles bs).2 = false) :
    (skipQuoted close doubles bs).1 = bs.length := by
  induction bs using skipQuoted.induct close doubles with
  | case1 => rfl
  | case2 b => rfl
  | case3 c bs hdoubles ih =>
      simp only [skipQuoted, if_true, hdoubles] at h ⊢
      rw [ih h]
      rfl
  | case4 c bs hdoubles =>
      simp only [skipQuoted, if_true, hdoubles] at h
      cases h
  | case5 b c bs hb ih =>
      simp only [skipQuoted, if_neg hb] at h ⊢
      rw [ih h]
      rfl

/-- A closed run is closed whatever follows, unless that doubles its quote. -/
theorem skipQuoted_congr {as rest rest' : Bytes}
    (h : skipQuoted close doubles (as ++ rest) = (as.length, true))
    (hrest : rest'.head? = some close → doubles = true → rest.head? = some close) :
    skipQuoted close doubles (as ++ rest') = (as.length, true) := by
  induction as using skipQuoted.induct close doubles with
  | case1 =>
      cases rest with
      | nil => cases h
      | cons b bs => exact absurd (congrArg Prod.fst h) skipQuoted_ne_zero
  | case2 b =>
      have hb : b = close := by
        cases rest with
        | nil => simpa [skipQuoted] using h
        | cons c cs =>
            by_contra hb
            simp only [List.cons_append, List.nil_append, skipQuoted, if_neg hb] at h
            exact absurd (Nat.succ.inj (congrArg Prod.fst h)) skipQuoted_ne_zero
      cases rest' with
      | nil => simp [skipQuoted, hb]
      | cons c cs =>
          simp only [List.cons_append, List.nil_append, skipQuoted, if_pos hb]
          rw [if_neg]
          · rfl
          · rw [Bool.and_eq_true, decide_eq_true_eq]
            rintro ⟨hdoubles, rfl⟩
            -- the quote would have been doubled before `rest` as well
            cases rest with
            | nil => cases hrest rfl hdoubles
            | cons d ds =>
                obtain rfl := Option.some.inj (hrest rfl hdoubles)
                simp [skipQuoted, hb, hdoubles] at h
  | case3 c as hdoubles ih =>
      simp only [List.cons_append, skipQuoted, if_true, hdoubles, List.length_cons] at h ⊢
      rw [ih (Prod.ext (Nat.add_right_cancel (Prod.mk.inj h).1) (Prod.mk.inj h).2)]
  | case4 c as hdoubles =>
      simp only [List.cons_append, skipQuoted, if_true, hdoubles] at h ⊢
      exact h
  | case5 b c as hb ih =>
      simp only [List.cons_append, skipQuoted, if_neg hb] at h ⊢
      rw [← List.cons_append, ih (Prod.ext (Nat.succ.inj (Prod.mk.inj h).1) (Prod.mk.inj h).2)]
      rfl

end

/-! ### One lemma for each kind of lexeme

`as` is what stands behind a lexeme's first byte, `rest` and `rest'` what may
stand behind the lexeme. -/

section

variable {kind : Lexeme} {as rest rest' : Bytes}

/-- A new second byte is that of a lexeme of one byte. -/
theorem Alike.second (h : Alike kind rest rest') {c : UInt8} (hc : (as ++ rest').head? = some c) :
    (as ++ rest).head? = some c ∨ as = [] ∧ Sep c := by
  cases as with
  | cons b bs => exact Or.inl hc
  | nil =>
      obtain hsame | ⟨-, d, hd, hsep⟩ := h
      · exact Or.inl (hsame ▸ hc)
      · obtain rfl : d = c := Option.some.inj (hd.symm.trans hc)
        exact Or.inr ⟨rfl, hsep⟩

/-- A byte that does not open a lexeme of two does not before other texts. -/
theorem Alike.not_second (h : Alike kind rest rest') {b : UInt8} {P : Prop}
    (hsep : ∀ c, Sep c → c ≠ b) (hno : ¬(P ∧ (as ++ rest).head? = some b)) :
    ¬(P ∧ (as ++ rest').head? = some b) := by
  rintro ⟨hp, hb⟩
  obtain hb | ⟨-, hb⟩ := h.second hb
  · exact hno ⟨hp, hb⟩
  · exact hsep b hb rfl

/-- What ends a run that no closed lexeme goes on with ends it still. -/
theorem Alike.stops (h : Alike kind rest rest') {p : UInt8 → Bool}
    (hp : ∀ c, Sep c → p c = false) :
    ∀ c, rest'.head? = some c → rest.head? = some c ∨ p c = false := by
  intro c hc
  obtain hsame | ⟨-, d, hd, hsep⟩ := h
  · exact Or.inl (hsame ▸ hc)
  · obtain rfl : d = c := Option.some.inj (hd.symm.trans hc)
    exact Or.inr (hp d hsep)

theorem Alike.nil_of_open (h : Alike kind rest rest') (hopen : kind.isOpen = true)
    (hrest : rest = []) : rest' = [] := by
  obtain hsame | ⟨hclosed, -⟩ := h
  · rw [hrest] at hsame
    exact List.head?_eq_none_iff.mp hsame
  · exact absurd (hopen.symm.trans hclosed) nofun

theorem lineComment_congr (halike : Alike kind rest rest')
    (hread : (Lexeme.lineComment, ((as ++ rest).takeWhile (· ≠ ascii '\n')).length + 1) =
      (kind, as.length + 1)) :
    (Lexeme.lineComment, ((as ++ rest').takeWhile (· ≠ ascii '\n')).length + 1) =
      (kind, as.length + 1) := by
  obtain ⟨rfl, hlen⟩ := Prod.mk.inj hread
  -- a line comment is open: only what begins alike goes behind it
  have hstop : ∀ c, rest'.head? = some c →
      rest.head? = some c ∨ decide (c ≠ ascii '\n') = false := fun c hc =>
    halike.elim (fun heq => Or.inl (heq ▸ hc)) fun hsep => nomatch hsep.1
  rw [run_congr (Nat.succ.inj hlen) hstop]

theorem blockComment_congr (halike : Alike kind rest rest')
    (hread : (Lexeme.blockComment (skipBlock (as ++ rest)).2, (skipBlock (as ++ rest)).1 + 1) =
      (kind, as.length + 1)) :
    (Lexeme.blockComment (skipBlock (as ++ rest')).2, (skipBlock (as ++ rest')).1 + 1) =
      (kind, as.length + 1) := by
  obtain ⟨hkind, hlen⟩ := Prod.mk.inj hread
  cases hclosed : (skipBlock (as ++ rest)).2 with
  | true =>
      rw [skipBlock_congr (Prod.ext (Nat.succ.inj hlen) hclosed), ← hkind, hclosed]
  | false =>
      -- an open comment has taken all of `rest`
      have hall := (skipBlock_open hclosed).symm.trans (Nat.succ.inj hlen)
      rw [List.length_append] at hall
      have hrest : rest = [] := List.eq_nil_of_length_eq_zero (by omega)
      rw [hclosed] at hkind
      rw [halike.nil_of_open (hkind ▸ rfl) hrest, ← hrest, hclosed, hkind, hlen]

/-- A quoted run, of either style. -/
theorem quoted_congr (halike : Alike kind rest rest') {close : UInt8} {doubles : Bool}
    (hsep : ∀ c, Sep c → c = close → doubles = false)
    (hread : (Lexeme.quoted (skipQuoted close doubles (as ++ rest)).2,
      (skipQuoted close doubles (as ++ rest)).1) = (kind, as.length)) :
    (Lexeme.quoted (skipQuoted close doubles (as ++ rest')).2,
      (skipQuoted close doubles (as ++ rest')).1) = (kind, as.length) := by
  obtain ⟨hkind, hlen⟩ := Prod.mk.inj hread
  cases hclosed : (skipQuoted close doubles (as ++ rest)).2 with
  | true =>
      rw [skipQuoted_congr (Prod.ext hlen hclosed), ← hkind, hclosed]
      intro hc hdoubles
      obtain hsame | ⟨-, d, hd, hd'⟩ := halike
      · exact hsame ▸ hc
      · obtain rfl : d = close := Option.some.inj (hd.symm.trans hc)
        exact absurd (hdoubles.symm.trans (hsep d hd' rfl)) nofun
  | false =>
      have hall := (skipQuoted_open hclosed).symm.trans hlen
      rw [List.length_append] at hall
      have hrest : rest = [] := List.eq_nil_of_length_eq_zero (by omega)
      rw [hclosed] at hkind
      rw [halike.nil_of_open (hkind ▸ rfl) hrest, ← hrest, hclosed, hkind, hlen]

theorem mark_congr (halike : Alike kind rest rest')
    (hread : (Lexeme.param (if ((as ++ rest).takeWhile isDigit).length = 0 then .positional
      else .numbered), ((as ++ rest).takeWhile isDigit).length) = (kind, as.length)) :
    (Lexeme.param (if ((as ++ rest').takeWhile isDigit).length = 0 then .positional
      else .numbered), ((as ++ rest').takeWhile isDigit).length) = (kind, as.length) := by
  obtain ⟨hkind, hlen⟩ := Prod.mk.inj hread
  rw [run_congr hlen (halike.stops fun c hc => isDigit_of_not_isIdent hc.ident), ← hkind, hlen]

theorem named_congr (halike : Alike kind rest rest') {a : UInt8}
    (hread : (if identEnd (as ++ rest) = 0 then (Lexeme.lonePrefix, 0)
      else (.param (paramOf (a :: (as ++ rest).takeWhile isIdent)), identEnd (as ++ rest))) =
        (kind, as.length)) :
    (if identEnd (as ++ rest') = 0 then (Lexeme.lonePrefix, 0)
      else (.param (paramOf (a :: (as ++ rest').takeWhile isIdent)), identEnd (as ++ rest'))) =
        (kind, as.length) := by
  have hlen : identEnd (as ++ rest) = as.length := by
    split at hread
    next hzero => exact hzero.trans (Prod.mk.inj hread).2
    next => exact (Prod.mk.inj hread).2
  have hnew := run_congr hlen (halike.stops fun c hc => hc.ident)
  have hold := run_eq hlen
  rw [identEnd, hnew]
  rwa [identEnd, hold] at hread

theorem word_congr (halike : Alike kind rest rest')
    (hread : (Lexeme.word, identEnd (as ++ rest)) = (kind, as.length)) :
    (Lexeme.word, identEnd (as ++ rest')) = (kind, as.length) := by
  obtain ⟨hkind, hlen⟩ := Prod.mk.inj hread
  rw [identEnd, run_congr hlen (halike.stops fun c hc => hc.ident), hkind]

/-- What opens a comment has a second byte of its own. -/
theorem exists_second {b : UInt8} {n : Nat} (h : (as ++ rest).head? = some b)
    (hlen : n + 1 = as.length) : ∃ bs, as = b :: bs := by
  cases as with
  | nil => cases hlen
  | cons c bs => exact ⟨bs, by rw [Option.some.inj h]⟩

end

/-- **Before texts that go on alike a lexeme is read the same.** What a lexeme
is is told by its first byte, or by its first two, and those stay. -/
theorem reads_congr {l : Lexeme × Bytes} {rest rest' : Bytes} (h : Reads next l rest)
    (ha : Alike l.1 rest rest') : Reads next l rest' := by
  obtain ⟨kind, own⟩ := l
  obtain ⟨a, as, rfl, hnext⟩ := h
  refine ⟨a, as, rfl, ?_⟩
  dsimp only at hnext ⊢
  have halike : Alike kind rest rest' := ha
  rw [next] at hnext ⊢
  split at hnext
  next hspace => rwa [if_pos hspace]
  next hspace =>
  rw [if_neg hspace]
  split at hnext
  next hdash =>
    obtain ⟨bs, rfl⟩ := exists_second hdash.2 (Prod.mk.inj hnext).2
    rw [if_pos ⟨hdash.1, rfl⟩]
    exact lineComment_congr halike hnext
  next hdash =>
  rw [if_neg (halike.not_second (fun c hc => hc.dash) hdash)]
  split at hnext
  next hslash =>
    obtain ⟨bs, rfl⟩ := exists_second hslash.2 (Prod.mk.inj hnext).2
    rw [if_pos ⟨hslash.1, rfl⟩]
    exact blockComment_congr halike hnext
  next hslash =>
  rw [if_neg (halike.not_second (fun c hc => hc.star) hslash)]
  split at hnext
  next hsemi => rwa [if_pos hsemi]
  next hsemi =>
  rw [if_neg hsemi]
  split at hnext
  next hq =>
    rw [if_pos hq]
    refine quoted_congr halike (fun c hsep hc => ?_) hnext
    subst hc
    obtain ⟨h1, h2, h3⟩ := hsep.quote
    rcases hq with rfl | rfl | rfl
    · exact absurd rfl h1
    · exact absurd rfl h2
    · exact absurd rfl h3
  next hq =>
  rw [if_neg hq]
  split at hnext
  next hb =>
    rw [if_pos hb]
    exact quoted_congr halike (fun _ _ _ => rfl) hnext
  next hb =>
  rw [if_neg hb]
  split at hnext
  next hmark =>
    rw [if_pos hmark]
    exact mark_congr halike hnext
  next hmark =>
  rw [if_neg hmark]
  split at hnext
  next hname =>
    rw [if_pos hname]
    exact named_congr halike hnext
  next hname =>
  rw [if_neg hname]
  split at hnext
  next hword =>
    rw [if_pos hword]
    exact word_congr halike hnext
  next hword => rwa [if_neg hword]

/-! ### Where a lexeme ends -/

/-- What an open lexeme leaves is nothing, or the next line. -/
theorem Lexeme.isOpen.rest {l : Lexeme × Bytes} {rest : Bytes} (hopen : l.1.isOpen = true)
    (h : Reads next l rest) : rest = [] ∨ rest.head? = some (ascii '\n') := by
  obtain ⟨kind, own⟩ := l
  obtain ⟨a, as, -, hnext⟩ := h
  dsimp only at hopen hnext
  -- an open run has no room for anything behind it
  have hall : ∀ {n : Nat}, n = (as ++ rest).length → n = as.length → rest = [] := by
    intro n htotal hown
    rw [List.length_append] at htotal
    exact List.eq_nil_of_length_eq_zero (by omega)
  have hquoted : ∀ close doubles, (Lexeme.quoted (skipQuoted close doubles (as ++ rest)).2,
      (skipQuoted close doubles (as ++ rest)).1) = (kind, as.length) → rest = [] := by
    intro close doubles hread
    obtain ⟨rfl, hlen⟩ := Prod.mk.inj hread
    cases hclosed : (skipQuoted close doubles (as ++ rest)).2 with
    | true =>
        rw [hclosed] at hopen
        cases hopen
    | false => exact hall (skipQuoted_open hclosed) hlen
  rw [next] at hnext
  split at hnext
  · obtain ⟨rfl, -⟩ := Prod.mk.inj hnext
    cases hopen
  split at hnext
  next hdash =>
    obtain ⟨b, bs, rfl⟩ := List.exists_cons_of_ne_nil (l := as) (by
      rintro rfl
      cases hnext)
    obtain ⟨-, hlen⟩ := Prod.mk.inj hnext
    cases rest with
    | nil => exact Or.inl rfl
    | cons c cs =>
        have hc := run_stops (Nat.succ.inj hlen) c rfl
        exact Or.inr (congrArg some (by simpa using hc))
  split at hnext
  next hslash =>
    obtain ⟨b, bs, rfl⟩ := List.exists_cons_of_ne_nil (l := as) (by
      rintro rfl
      cases hnext)
    obtain ⟨hkind, hlen⟩ := Prod.mk.inj hnext
    rw [List.cons_append, List.tail_cons] at hkind hlen
    cases hclosed : (skipBlock (bs ++ rest)).2 with
    | true =>
        rw [← hkind, hclosed] at hopen
        cases hopen
    | false =>
        have htotal := (skipBlock_open hclosed).symm.trans (Nat.succ.inj hlen)
        rw [List.length_append] at htotal
        exact Or.inl (List.eq_nil_of_length_eq_zero (by omega))
  split at hnext
  · obtain ⟨rfl, -⟩ := Prod.mk.inj hnext
    cases hopen
  split at hnext
  · exact Or.inl (hquoted _ _ hnext)
  split at hnext
  · exact Or.inl (hquoted _ _ hnext)
  split at hnext
  · obtain ⟨rfl, -⟩ := Prod.mk.inj hnext
    cases hopen
  split at hnext
  · split at hnext
    · obtain ⟨rfl, -⟩ := Prod.mk.inj hnext
      cases hopen
    · obtain ⟨rfl, -⟩ := Prod.mk.inj hnext
      cases hopen
  split at hnext
  · obtain ⟨rfl, -⟩ := Prod.mk.inj hnext
    cases hopen
  · obtain ⟨rfl, -⟩ := Prod.mk.inj hnext
    cases hopen

/-- No digit follows a parameter. -/
theorem isDigit_after_param {p : Param} {own rest : Bytes}
    (h : Reads next (.param p, own) rest) : ∀ c, rest.head? = some c → isDigit c = false := by
  obtain ⟨a, as, -, hnext⟩ := h
  dsimp only at hnext
  rw [next] at hnext
  split at hnext
  · cases hnext
  split at hnext
  · cases hnext
  split at hnext
  · cases hnext
  split at hnext
  · cases hnext
  split at hnext
  · cases hnext
  split at hnext
  · cases hnext
  split at hnext
  · exact run_stops (Prod.mk.inj hnext).2
  split at hnext
  · split at hnext
    · cases hnext
    · exact fun c hc => isDigit_of_not_isIdent (run_stops (Prod.mk.inj hnext).2 c hc)
  split at hnext
  · cases hnext
  · cases hnext

/-! ### The lexemes of a statement whose parameters are replaced -/

/-- A bare question mark. -/
def mark : Lexeme × Bytes := (.param .positional, [ascii '?'])

section

variable (sessions : List String)

/-- The lexemes of a placeholder. -/
def placed : Param → List (Lexeme × Bytes)
  | .sessions =>
      [(.other, [ascii '('])] ++
        [(Lexeme.other, [ascii ',']), (.space, [ascii ' '])].intercalate
          (sessions.map fun _ => [mark]) ++ [(.other, [ascii ')'])]
  | _ => [mark]

/-- A lexeme, or what is put in place of it. -/
def inPlace : Lexeme × Bytes → List (Lexeme × Bytes)
  | (.param p, _) => placed sessions p
  | l => [l]

def rewritten (ls : List (Lexeme × Bytes)) : List (Lexeme × Bytes) := ls.flatMap (inPlace sessions)

theorem text_intercalate (sep : List (Lexeme × Bytes)) (xs : List (List (Lexeme × Bytes))) :
    text (sep.intercalate xs) = (text sep).intercalate (xs.map text) := by
  induction xs with
  | nil => rfl
  | cons x xs ih =>
      cases xs with
      | nil => simp
      | cons y ys =>
          rw [List.intercalate_cons_cons, text_append, text_append, ih]
          simp only [List.map_cons, List.intercalate_cons_cons]

theorem text_placed (p : Param) : text (placed sessions p) = placeholder sessions p := by
  cases p with
  | sessions =>
      show text ([_] ++ _ ++ [_]) = _
      rw [text_append, text_append, text_intercalate, List.map_map]
      rfl
  | _ => rfl

theorem inPlace_of_ne {l : Lexeme × Bytes} (h : ∀ p, l.1 ≠ .param p) : inPlace sessions l = [l] := by
  obtain ⟨kind, own⟩ := l
  cases kind with
  | param p => exact absurd rfl (h p)
  | _ => rfl

variable {sessions}

theorem reads_mark {rest : Bytes} (h : ∀ c, rest.head? = some c → isDigit c = false) :
    Reads next mark rest := by
  refine ⟨ascii '?', [], rfl, ?_⟩
  have hrun : (rest.takeWhile isDigit) = [] := by
    cases rest with
    | nil => rfl
    | cons c cs => exact List.takeWhile_cons_of_neg (by rw [h c rfl]; exact nofun)
  show (Lexeme.param (if (rest.takeWhile isDigit).length = 0 then Param.positional else .numbered),
    (rest.takeWhile isDigit).length) = _
  rw [hrun]
  rfl

/-- The marks of a list of streams. -/
theorem lexed_marks {ms : List (Lexeme × Bytes)} (hms : Lexed next ms)
    (h : ∀ c, (text ms).head? = some c → isDigit c = false) (ids : List String) :
    Lexed next ([(Lexeme.other, [ascii ',']), (.space, [ascii ' '])].intercalate
      (ids.map fun _ => [mark]) ++ ms) := by
  induction ids with
  | nil => exact hms
  | cons id ids ih =>
      cases ids with
      | nil => exact ⟨reads_mark h, hms⟩
      | cons id' ids =>
          rw [List.map_cons, List.map_cons, List.intercalate_cons_cons, List.append_assoc,
            List.append_assoc]
          refine ⟨reads_mark fun c hc => ?_, ⟨_, [], rfl, rfl⟩, ⟨_, [], rfl, rfl⟩, ih⟩
          obtain rfl : ascii ',' = c := Option.some.inj hc
          rfl

theorem lexed_placed {p : Param} {ms : List (Lexeme × Bytes)} (hms : Lexed next ms)
    (h : ∀ c, (text ms).head? = some c → isDigit c = false) :
    Lexed next (placed sessions p ++ ms) := by
  have hmark : Lexed next (mark :: ms) := ⟨reads_mark h, hms⟩
  cases p with
  | sessions =>
      rw [placed, List.append_assoc, List.append_assoc]
      have hclosed : Lexed next ((.other, [ascii ')']) :: ms) := ⟨⟨_, [], rfl, rfl⟩, hms⟩
      refine ⟨⟨_, [], rfl, rfl⟩, lexed_marks hclosed (fun c hc => ?_) _⟩
      · obtain rfl : ascii ')' = c := Option.some.inj hc
        rfl
  | _ => exact hmark

theorem sep_placeholder (sessions : List String) (p : Param) :
    ∃ c, (placeholder sessions p).head? = some c ∧ Sep c := by
  cases p with
  | sessions => exact ⟨ascii '(', rfl, by decide⟩
  | _ => exact ⟨ascii '?', rfl, by decide⟩

theorem head?_text_append {ls : List (Lexeme × Bytes)} {rest : Bytes} {c : UInt8}
    (h : (text ls).head? = some c) : (text ls ++ rest).head? = some c := by
  cases hls : text ls with
  | nil =>
      rw [hls] at h
      cases h
  | cons d ds =>
      rw [hls] at h
      exact h

/-- Replacing the parameters behind a lexeme does not change what it is. -/
theorem alike_rewritten (sessions : List String) {l : Lexeme × Bytes} {ls : List (Lexeme × Bytes)}
    (hl : Reads next l (text ls)) (hls : Lexed next ls) :
    Alike l.1 (text ls) (text (rewritten sessions ls)) := by
  cases ls with
  | nil => exact Or.inl rfl
  | cons m ls =>
      obtain ⟨hm, -⟩ := hls
      obtain ⟨kind, own⟩ := m
      have hhead : ∀ rest, (own ++ rest).head? = own.head? := fun rest => by
        obtain ⟨b, bs, hown⟩ := List.exists_cons_of_ne_nil hm.ne_nil
        show _ = own.head?
        rw [show own = b :: bs from hown]
        rfl
      cases kind with
      | param p =>
          obtain ⟨c, hc, hsep⟩ := sep_placeholder sessions p
          refine Or.inr ⟨?_, c, ?_, hsep⟩
          · cases hopen : l.1.isOpen with
            | false => rfl
            | true =>
                -- a parameter would have to stand where the line ended
                obtain hnil | hline := Lexeme.isOpen.rest hopen hl
                · exact absurd (List.append_eq_nil_iff.mp hnil).1 hm.ne_nil
                · obtain ⟨a, as, hown, hnext⟩ := hm
                  dsimp only at hown hnext
                  subst hown
                  obtain rfl : a = ascii '\n' := Option.some.inj hline
                  cases (Prod.mk.inj hnext).1
          · show (text (placed sessions p ++ _)).head? = _
            rw [text_append, text_placed]
            rw [← text_placed] at hc ⊢
            exact head?_text_append hc
      | _ => exact Or.inl ((hhead _).trans (hhead _).symm)

/-- **The lexemes of the rewritten text are the rewritten lexemes.** -/
theorem lexed_rewritten {ls : List (Lexeme × Bytes)} (h : Lexed next ls) :
    Lexed next (rewritten sessions ls) := by
  induction ls with
  | nil => trivial
  | cons l ls ih =>
      obtain ⟨hl, hls⟩ := h
      have halike := alike_rewritten sessions hl hls
      obtain ⟨kind, own⟩ := l
      show Lexed next (inPlace sessions (kind, own) ++ rewritten sessions ls)
      cases kind with
      | param p =>
          refine lexed_placed (ih hls) fun c hc => ?_
          obtain hsame | ⟨-, d, hd, hsep⟩ := halike
          · exact isDigit_after_param hl c (hsame ▸ hc)
          · obtain rfl : d = c := Option.some.inj (hd.symm.trans hc)
            exact isDigit_of_not_isIdent hsep.ident
      | _ => exact ⟨reads_congr hl halike, ih hls⟩

theorem lexemes_rewritten (sql : Bytes) :
    lexemes next (text (rewritten sessions (lexemes next sql))) =
      rewritten sessions (lexemes next sql) :=
  (lexed_rewritten (lexed_lexemes next_bounded sql)).lexemes_text

end
end AgentBlock.Knl.Query
