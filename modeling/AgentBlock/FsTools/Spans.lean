/-
AgentBlock/FsTools/Spans.lean

A text found in a file, and the whole lines it touches.

A file is read here as its lines with a newline after each (`terminated`), the
last one too.  A text found in it lies in a run of those lines, after some text
of the first of them and before some of the last, newline and all (`Span`); the
edit of whole lines the tool makes of it is the edit of that run
(`lineEditFor_eq`).  It begins with the line its text begins on and ends with the one
that text ends on (`Span.first`, `Span.last`).
-/
import AgentBlock.FsTools.Replace
import Mathlib.Data.List.TakeDrop

namespace AgentBlock.FsTools

open Bridge.Fs

variable {content search replace : Text} {p q n init : ℕ} {lines : List Text}

/-! ### Finding -/

/-- The text is there at a place. -/
def OccursAt (content search : Text) (p : ℕ) : Prop := search <+: content.drop p

instance : Decidable (OccursAt content search p) :=
  inferInstanceAs (Decidable (search <+: content.drop p))

theorem OccursAt.le (hsearch : search ≠ []) (h : OccursAt content search p) :
    p + search.length ≤ content.length := by
  have hlen := h.length_le
  have hpos := List.length_pos_iff.mpr hsearch
  rw [List.length_drop] at hlen
  omega

theorem find_some (h : find content search init = some p) :
    init ≤ p ∧ OccursAt content search p ∧
      ∀ q, init ≤ q → q < p → ¬ OccursAt content search q := by
  unfold find at h
  obtain ⟨⟨l, r⟩, honce, rfl⟩ := Option.map_eq_some_iff.mp h
  obtain ⟨hdrop, hbefore⟩ := Split.of_once honce
  refine ⟨Nat.le_add_right _ _, ?_, fun q hq hlt hocc => ?_⟩
  · show search <+: content.drop (init + l.length)
    rw [← List.drop_drop, hdrop, List.append_assoc, List.drop_left]
    exact List.prefix_append _ _
  · refine hbefore (q - init) ?_ ?_
    · dsimp only at hlt
      omega
    · rw [List.drop_drop, Nat.add_sub_cancel' hq]
      exact hocc

theorem find_none (hsearch : search ≠ []) (h : find content search init = none) (hq : init ≤ q) :
    ¬ OccursAt content search q := by
  intro hocc
  have honce := Option.map_eq_none_iff.mp h
  have hle := hocc.le hsearch
  refine Split.once_eq_none.mp honce (q - init) ?_ ?_
  · rw [List.length_drop]
    omega
  · rw [List.drop_drop, Nat.add_sub_cancel' hq]
    exact hocc

/-- The text is found at `p` first, and nowhere after its end. -/
def Settled (content search : Text) (p : ℕ) : Prop :=
  OccursAt content search p ∧ ∀ q, OccursAt content search q → p ≤ q ∧ q < p + search.length

theorem findRest_eq_nil (init : ℕ) (hsearch : search ≠ []) (hcontent : content ≠ []) :
    findRest content search content.length init = [] ↔
      ∀ q, init ≤ q → ¬ OccursAt content search q := by
  obtain ⟨turns, hturns⟩ : ∃ turns, content.length = turns + 1 :=
    Nat.exists_eq_succ_of_ne_zero (by simpa using hcontent)
  rw [hturns]
  unfold findRest
  cases hfind : find content search init with
  | none => exact iff_of_true rfl fun q hq => find_none hsearch hfind hq
  | some p =>
      obtain ⟨hle, hocc, -⟩ := find_some hfind
      exact iff_of_false (List.cons_ne_nil _ _) fun h => h p hle hocc

/-- An edit resolves exactly when its search is found and is not again after
its end, -/
theorem resolve_ok_iff {i : ℕ} {request : EditRequest} (hsearch : search ≠ []) :
    resolve content i ⟨some search, some replace⟩ = .ok request ↔
      ∃ p, Settled content search p ∧ request = lineEditFor content p search replace := by
  unfold resolve
  dsimp only
  rw [if_neg hsearch]
  cases hfind : find content search 0 with
  | none =>
      refine iff_of_false (fun h => by cases h) ?_
      rintro ⟨p, hsettled, -⟩
      exact find_none hsearch hfind (Nat.zero_le p) hsettled.1
  | some p =>
      obtain ⟨-, hocc, hfirst⟩ := find_some hfind
      have hcontent : content ≠ [] := by
        rintro rfl
        have := hocc.le hsearch
        have := List.length_pos_iff.mpr hsearch
        simp only [List.length_nil] at *
        omega
      have hnil := findRest_eq_nil (p + search.length) hsearch hcontent
      dsimp only
      cases hrest : findRest content search content.length (p + search.length) with
      | nil =>
          have hafter := hnil.mp hrest
          have hsettled : Settled content search p := by
            refine ⟨hocc, fun q hq => ⟨?_, ?_⟩⟩
            · exact Nat.not_lt.mp fun hlt => hfirst q (Nat.zero_le q) hlt hq
            · exact Nat.not_le.mp fun hle => hafter q hle hq
          constructor
          · intro h
            cases h
            exact ⟨p, hsettled, rfl⟩
          · rintro ⟨p', hsettled', rfl⟩
            -- both are the first place
            have hle := (hsettled.2 p' hsettled'.1).1
            have hle' := (hsettled'.2 p hocc).1
            rw [Nat.le_antisymm hle hle']
      | cons x xs =>
          refine iff_of_false (fun h => by cases h) ?_
          rintro ⟨p', hsettled', -⟩
          rw [hnil.mpr fun q hq hocc' => ?_] at hrest
          · cases hrest
          · have := (hsettled'.2 p hocc).1
            have := (hsettled'.2 q hocc').2
            have := hfirst p' (Nat.zero_le p')
            by_cases hlt : p' < p
            · exact this hlt hsettled'.1
            · omega

/-- and what it is refused with names it. -/
theorem resolve_error {i : ℕ} {e : SnippetEdit} {miss : Miss}
    (h : resolve content i e = .error miss) : miss.editIndex = i := by
  unfold resolve at h
  split at h
  · split at h
    · cases h; rfl
    · split at h
      · cases h; rfl
      · split at h
        · cases h
        · cases h; rfl
  · cases h; rfl

/-! ### Lines with a newline after each -/

def terminated (lines : List Text) : Text := lines.flatMap (· ++ ['\n'])

theorem terminated_append (above below : List Text) :
    terminated (above ++ below) = terminated above ++ terminated below := List.flatMap_append

theorem terminated_concat (above : List Text) (l : Text) :
    terminated (above ++ [l]) = terminated above ++ l ++ ['\n'] := by
  rw [terminated_append, List.append_assoc]
  exact congrArg _ (List.append_nil _)

theorem terminated_eq (h : lines ≠ []) :
    terminated lines = List.intercalate ['\n'] lines ++ ['\n'] := by
  induction lines with
  | nil => exact absurd rfl h
  | cons l lines ih =>
      cases lines with
      | nil => simp [terminated]
      | cons l' lines =>
          show l ++ ['\n'] ++ terminated (l' :: lines) = _
          rw [ih (List.cons_ne_nil _ _), List.intercalate_cons_cons]
          simp only [List.append_assoc]

theorem count_terminated (hlines : ∀ l ∈ lines, '\n' ∉ l) :
    (terminated lines).count '\n' = lines.length := by
  induction lines with
  | nil => rfl
  | cons l lines ih =>
      have hl : l.count '\n' = 0 := List.count_eq_zero_of_not_mem (hlines l List.mem_cons_self)
      show (l ++ ['\n'] ++ terminated lines).count '\n' = _
      rw [List.count_append, List.count_append, hl,
        ih fun x hx => hlines x (List.mem_cons_of_mem _ hx), List.length_cons]
      show 0 + 1 + lines.length = _
      omega

/-- The file, and the newline it may lack at its end. -/
theorem terminated_splitLines (content : Text) :
    terminated (splitLines content).1 =
      content ++ if (splitLines content).2 then [] else ['\n'] := by
  have hjoin := joinLines_splitLines content
  rw [terminated_eq (splitLines_ne_nil content)]
  unfold joinLines at hjoin
  cases hflag : (splitLines content).2 with
  | true =>
      rw [hflag] at hjoin
      simpa using hjoin
  | false =>
      rw [hflag] at hjoin
      simpa using hjoin

/-- The line a character is in. -/
theorem line_at (lines : List Text) (h : n < (terminated lines).length) :
    ∃ above l below, lines = above ++ l :: below ∧ (terminated above).length ≤ n ∧
      n ≤ (terminated above).length + l.length := by
  induction lines generalizing n with
  | nil => exact absurd h (Nat.not_lt_zero n)
  | cons l lines ih =>
      have hlen : (terminated (l :: lines)).length = l.length + 1 + (terminated lines).length := by
        show (l ++ ['\n'] ++ terminated lines).length = _
        rw [List.length_append, List.length_append, List.length_singleton]
      by_cases hhere : n ≤ l.length
      · exact ⟨[], l, lines, rfl, Nat.zero_le n, (Nat.zero_add l.length).symm ▸ hhere⟩
      · obtain ⟨above, l', below, rfl, hle, hlt⟩ := ih (n := n - (l.length + 1)) (by omega)
        have hlen' :
            (terminated (l :: above)).length = l.length + 1 + (terminated above).length := by
          show (l ++ ['\n'] ++ terminated above).length = _
          rw [List.length_append, List.length_append, List.length_singleton]
        exact ⟨l :: above, l', below, rfl, by omega, by omega⟩

/-! ### The lines a text touches -/

/-- A text found at a place of a file, in the lines it touches: `lead` before
it on the first of them, and `rest` after it, newline and all. -/
structure Span (lines : List Text) (search : Text) (p : ℕ) where
  above : List Text
  touched : List Text
  below : List Text
  lead : Text
  rest : Text
  lines_eq : lines = above ++ touched ++ below
  touched_ne : touched ≠ []
  place : p = (terminated above).length + lead.length
  lead_line : '\n' ∉ lead
  text_eq : terminated touched = lead ++ search ++ rest
  /-- The newline is the text's own, or it is what ends the last line. -/
  ends : (search.getLast? = some '\n' ∧ rest = []) ∨
    search.getLast? ≠ some '\n' ∧ ∃ tail, rest = tail ++ ['\n'] ∧ '\n' ∉ tail

/-- What is left of the last line touched, without its newline. -/
def Span.tail (s : Span lines search p) : Text := s.rest.dropLast

/-- What follows a text that ends on a line. -/
theorem span_ends {before above last rest : Text} (hlast : '\n' ∉ last) (hsearch : search ≠ [])
    (heq : before ++ search ++ rest = above ++ last ++ ['\n'])
    (hle : above.length < before.length + search.length) :
    (search.getLast? = some '\n' ∧ rest = []) ∨
      search.getLast? ≠ some '\n' ∧ ∃ tail, rest = tail ++ ['\n'] ∧ '\n' ∉ tail := by
  obtain ⟨init, c, rfl⟩ : ∃ init c, search = init ++ [c] := by
    rcases List.eq_nil_or_concat search with hnil | ⟨init, c, hc⟩
    · exact absurd hnil hsearch
    · exact ⟨init, c, hc.trans List.concat_eq_append⟩
  rw [List.getLast?_concat]
  rcases List.eq_nil_or_concat rest with rfl | ⟨tail, d, rfl⟩
  · -- the text ends where the line does
    left
    rw [List.append_nil, ← List.append_assoc] at heq
    obtain ⟨-, hc⟩ := List.append_inj' heq rfl
    exact ⟨by rw [List.singleton_inj.mp hc], rfl⟩
  · right
    rw [List.concat_eq_append, ← List.append_assoc] at heq
    obtain ⟨hbody, hd⟩ := List.append_inj' heq rfl
    -- its last character and what follows it are a part of the line
    have hpart : [c] ++ tail = last.drop ((before ++ init).length - above.length) := by
      have hdrop := congrArg (List.drop (before ++ init).length) hbody
      have hshort : above.length ≤ (before ++ init).length := by
        simp only [List.length_append, List.length_singleton] at hle ⊢
        omega
      rw [← List.append_assoc, List.append_assoc _ [c], List.drop_left, List.drop_append,
        List.drop_eq_nil_of_le hshort, List.nil_append] at hdrop
      exact hdrop
    have hnot : '\n' ∉ [c] ++ tail := by
      rw [hpart]
      exact fun hmem => hlast (List.mem_of_mem_drop hmem)
    refine ⟨fun hc => hnot ?_, tail, ?_, fun hmem => hnot (List.mem_append_right _ hmem)⟩
    · rw [Option.some.inj hc]
      exact List.mem_append_left _ (List.mem_singleton_self _)
    · rw [List.concat_eq_append, List.singleton_inj.mp hd]

/-- What is found lies in the lines it touches. -/
theorem span_exists (hlines : ∀ l ∈ lines, '\n' ∉ l) (hsearch : search ≠ [])
    (h : OccursAt (terminated lines) search p) : Nonempty (Span lines search p) := by
  have hle := h.le hsearch
  have hpos := List.length_pos_iff.mpr hsearch
  obtain ⟨above, first, after, rfl, habove, hfirst⟩ := line_at (n := p) lines (by omega)
  have hsplit : terminated (above ++ first :: after) =
      terminated above ++ terminated (first :: after) := terminated_append _ _
  have hlen : (terminated (above ++ first :: after)).length =
      (terminated above).length + (terminated (first :: after)).length := by
    rw [hsplit, List.length_append]
  -- the line of its last character, from the first line on
  obtain ⟨mid, last, below, hfrom, hmid, hlast⟩ :=
    line_at (n := p + search.length - 1 - (terminated above).length) (first :: after)
      (by omega)
  obtain ⟨lead, more, rfl, hlead⟩ :
      ∃ lead more, first = lead ++ more ∧ lead.length = p - (terminated above).length :=
    ⟨first.take (p - (terminated above).length), first.drop (p - (terminated above).length),
      (List.take_append_drop _ _).symm, List.length_take_of_le (by omega)⟩
  have hleadline : '\n' ∉ lead := fun hmem => hlines (lead ++ more) (by simp) (by simp [hmem])
  have hlastline : '\n' ∉ last := hlines last (by rw [hfrom]; simp)
  have hrun : terminated ((lead ++ more) :: after) =
      terminated (mid ++ [last]) ++ terminated below := by
    rw [hfrom, ← terminated_append, List.append_assoc]
    rfl
  have hstart : lead ++ search <+: terminated ((lead ++ more) :: after) := by
    obtain ⟨rest, hrest⟩ := h
    have hfirstline : terminated ((lead ++ more) :: after) =
        lead ++ (more ++ ['\n'] ++ terminated after) := by
      show lead ++ more ++ ['\n'] ++ terminated after = _
      simp only [List.append_assoc]
    have hdrop : (terminated (above ++ (lead ++ more) :: after)).drop p =
        more ++ ['\n'] ++ terminated after := by
      rw [hsplit, List.drop_append, List.drop_eq_nil_of_le habove, List.nil_append, ← hlead,
        hfirstline, List.drop_left]
    rw [hfirstline, ← hdrop, ← hrest]
    exact ⟨rest, List.append_assoc _ _ _⟩
  have hwithin : lead ++ search <+: terminated (mid ++ [last]) := by
    refine List.prefix_of_prefix_length_le hstart ⟨_, hrun.symm⟩ ?_
    rw [terminated_concat]
    simp only [List.length_append, List.length_singleton] at *
    omega
  obtain ⟨rest, hrest⟩ := hwithin
  refine ⟨⟨above, mid ++ [last], below, lead, rest, ?_, by simp, by omega, hleadline, hrest.symm,
    ?_⟩⟩
  · rw [hfrom]
    simp
  · refine span_ends hlastline hsearch (hrest.trans (terminated_concat _ _)) ?_
    omega

theorem Span.newline (s : Span (splitLines content).1 search p) :
    ∀ l ∈ s.above ++ s.touched ++ s.below, '\n' ∉ l := by
  rw [← s.lines_eq]
  exact fun l hl => newline_not_mem hl

theorem Span.count_above (s : Span (splitLines content).1 search p) :
    (terminated s.above).count '\n' = s.above.length :=
  count_terminated fun l hl => s.newline l (by simp [hl])

theorem Span.count_touched (s : Span (splitLines content).1 search p) :
    (terminated s.touched).count '\n' = s.touched.length :=
  count_terminated fun l hl => s.newline l (by simp [hl])

/-! ### The edit of those lines -/

/-- The end of the line a place is on. -/
theorem lineEnd_eq {before : Text} (body after : Text) (hbody : '\n' ∉ body)
    (hcontent : content = before ++ body ++ after)
    (hafter : after = [] ∨ ∃ more, after = '\n' :: more) :
    (find content ['\n'] before.length).getD content.length = (before ++ body).length := by
  have hfind : find content ['\n'] before.length =
      (Split.first '\n' (body ++ after)).map fun p => before.length + p.1.length := by
    rw [find, Split.once_singleton, hcontent, List.append_assoc, List.drop_left]
  rw [hfind]
  rcases hafter with rfl | ⟨more, rfl⟩
  · rw [List.append_nil, Split.first_eq_none.mpr hbody, hcontent, List.append_nil]
    rfl
  · rw [Split.first_append _ hbody, List.length_append]
    rfl

/-- The start of the line a place is on. -/
theorem lineStart_eq {above : List Text} {lead : Text} (hlead : '\n' ∉ lead) :
    lineStart (terminated above ++ lead) = (terminated above).length := by
  unfold lineStart
  rcases List.eq_nil_or_concat above with rfl | ⟨above, l, rfl⟩
  · have hnone : Split.last '\n' (terminated [] ++ lead) = none := Split.last_eq_none.mpr hlead
    rw [hnone]
    rfl
  · have hsome : Split.last '\n' (terminated (above ++ [l]) ++ lead) =
        some (terminated above ++ l, lead) := by
      rw [terminated_concat, List.append_assoc]
      exact Split.last_append _ hlead
    rw [List.concat_eq_append, hsome, terminated_concat]
    simp only [List.length_append, List.length_singleton]

/-- The replacement, less a newline that the line keeps. -/
def kept (search replace : Text) : Text :=
  if search.getLast? = some '\n' ∧ replace.getLast? = some '\n' then replace.dropLast else replace

/-- What is left of the last line of a file after a place is all there is, or
goes on with a newline, with the newline the file may lack or without. -/
theorem line_goes_on {left extra tail : Text} {below : List Text}
    (hextra : extra = [] ∨ extra = ['\n'])
    (h : left ++ extra = tail ++ ['\n'] ++ terminated below) :
    ∃ after, left = tail ++ after ∧ (after = [] ∨ ∃ more, after = '\n' :: more) := by
  rcases hextra with rfl | rfl
  · rw [List.append_nil, List.append_assoc] at h
    exact ⟨_, h, Or.inr ⟨_, rfl⟩⟩
  · rcases List.eq_nil_or_concat below with rfl | ⟨below, l, rfl⟩
    · have hbare : left ++ ['\n'] = tail ++ ['\n'] := h.trans (List.append_nil _)
      exact ⟨[], (List.append_cancel_right hbare).trans (List.append_nil _).symm, Or.inl rfl⟩
    · rw [List.concat_eq_append, terminated_concat, ← List.append_assoc, ← List.append_assoc] at h
      refine ⟨'\n' :: (terminated below ++ l), ?_, Or.inr ⟨_, rfl⟩⟩
      rw [List.append_cancel_right h]
      simp only [List.append_assoc, List.cons_append, List.nil_append]

/-- A file in the parts of the lines a text touches. -/
structure Parts (content : Text) (s : Span (splitLines content).1 search p) : Prop where
  before : content.take p = terminated s.above ++ s.lead
  text : content = terminated s.above ++ s.lead ++ search ++ content.drop (p + search.length)
  upto : content.take (terminated s.above ++ List.intercalate ['\n'] s.touched).length =
    terminated s.above ++ List.intercalate ['\n'] s.touched
  ends : (find content ['\n'] (p + search.length - 1)).getD content.length =
    (terminated s.above ++ List.intercalate ['\n'] s.touched).length
  left : ∃ extra, (extra = [] ∨ extra = ['\n']) ∧
    content.drop (p + search.length) ++ extra = s.rest ++ terminated s.below

theorem parts (s : Span (splitLines content).1 search p) (hsearch : search ≠ [])
    (hocc : OccursAt content search p) : Parts content s := by
  have hle := hocc.le hsearch
  have hbody : terminated s.touched = List.intercalate ['\n'] s.touched ++ ['\n'] :=
    terminated_eq s.touched_ne
  obtain ⟨extra, hextra, hcases⟩ : ∃ extra, (extra = if (splitLines content).2 then [] else ['\n'])
      ∧ (extra = [] ∨ extra = ['\n']) := by
    cases (splitLines content).2 with
    | true => exact ⟨[], rfl, Or.inl rfl⟩
    | false => exact ⟨['\n'], rfl, Or.inr rfl⟩
  -- the file with the newline it may lack is its lines, each terminated
  have hwhole : content ++ extra =
      terminated s.above ++ terminated s.touched ++ terminated s.below := by
    rw [hextra, ← terminated_splitLines, ← terminated_append, ← terminated_append]
    exact congrArg terminated s.lines_eq
  have hfile : content ++ extra =
      terminated s.above ++ s.lead ++ search ++ (s.rest ++ terminated s.below) := by
    rw [hwhole, s.text_eq]
    simp only [List.append_assoc]
  have htake : ∀ k ≤ content.length, content.take k = (content ++ extra).take k :=
    fun k hk => (List.take_append_of_le_length hk).symm
  have hstart : (terminated s.above ++ s.lead).length = p := by
    rw [List.length_append, ← s.place]
  have hstop : (terminated s.above ++ s.lead ++ search).length = p + search.length := by
    rw [List.length_append, hstart]
  have hthrough : content.take (p + search.length) = terminated s.above ++ s.lead ++ search := by
    rw [htake _ hle, hfile, ← hstop, List.take_left]
  have hleft : content.drop (p + search.length) ++ extra = s.rest ++ terminated s.below := by
    rw [← List.drop_append_of_le_length hle, hfile, ← hstop, List.drop_left]
  have htext : content =
      terminated s.above ++ s.lead ++ search ++ content.drop (p + search.length) := by
    rw [← hthrough]
    exact (List.take_append_drop _ _).symm
  have hparts : ∀ init c, search = init ++ [c] → content =
      terminated s.above ++ s.lead ++ (init ++ [c]) ++ content.drop (p + search.length) :=
    fun init c h => h ▸ htext
  have hlens := congrArg List.length (hbody.symm.trans s.text_eq)
  simp only [List.length_append, List.length_singleton] at hlens hstop hstart
  obtain ⟨init, c, hinit⟩ : ∃ init c, search = init ++ [c] := by
    rcases List.eq_nil_or_concat search with hnil | ⟨init, c, hc⟩
    · exact absurd hnil hsearch
    · exact ⟨init, c, hc.trans List.concat_eq_append⟩
  have hinitlen : search.length = init.length + 1 := by
    rw [hinit, List.length_append, List.length_singleton]
  have hlast : (terminated s.above ++ s.lead ++ init).length = p + search.length - 1 := by
    simp only [List.length_append]
    omega
  have hends : (find content ['\n'] (p + search.length - 1)).getD content.length =
      (terminated s.above ++ List.intercalate ['\n'] s.touched).length := by
    rw [← hlast]
    rcases s.ends with ⟨hnewline, hrest⟩ | ⟨hother, tail, hrest, htail⟩
    · -- the text's own newline ends the line
      obtain rfl : c = '\n' := by
        rw [hinit, List.getLast?_concat] at hnewline
        exact Option.some.inj hnewline
      rw [hrest, List.length_nil] at hlens
      rw [lineEnd_eq [] ('\n' :: content.drop (p + search.length))
        List.not_mem_nil ?_ (Or.inr ⟨_, rfl⟩)]
      · simp only [List.length_append, List.length_nil]
        omega
      · refine (hparts init '\n' hinit).trans ?_
        simp only [List.append_assoc, List.nil_append, List.singleton_append]
    -- the line goes on behind the text, up to its newline or the end of the file
    · rw [hrest] at hleft hlens
      obtain ⟨after, hafter, hgoes⟩ := line_goes_on hcases hleft
      have hc : '\n' ∉ [c] ++ tail := by
        intro hmem
        rcases List.mem_append.mp hmem with hmem | hmem
        · rw [hinit, List.getLast?_concat, List.mem_singleton.mp hmem] at hother
          exact hother rfl
        · exact htail hmem
      rw [lineEnd_eq ([c] ++ tail) after hc ?_ hgoes]
      · simp only [List.length_append, List.length_singleton] at hlens ⊢
        omega
      · refine (hparts init c hinit).trans ?_
        rw [hafter]
        simp only [List.append_assoc]
  refine ⟨?_, htext, ?_, hends, extra, hcases, hleft⟩
  · rw [htake p (by omega), hfile]
    simp only [List.append_assoc]
    rw [← List.append_assoc (terminated s.above), List.take_left' (by
      rw [List.length_append]; exact hstart)]
  -- the lines the text touches end within the file
  · have hbound : (terminated s.above ++ List.intercalate ['\n'] s.touched).length ≤
        content.length := by
      rw [← hends]
      cases hfind : find content ['\n'] (p + search.length - 1) with
      | none => exact Nat.le_refl _
      | some q =>
          have := (find_some hfind).2.1.le (List.cons_ne_nil _ _)
          simp only [Option.getD_some, List.length_singleton] at *
          omega
    have hfile' : content ++ extra =
        terminated s.above ++ List.intercalate ['\n'] s.touched ++
          (['\n'] ++ terminated s.below) := by
      rw [hwhole, hbody]
      simp only [List.append_assoc]
    rw [htake _ hbound, hfile', List.take_left]

/-- The edit of whole lines is the edit of the lines the text touches. -/
theorem lineEditFor_eq (replace : Text) (s : Span (splitLines content).1 search p)
    (hsearch : search ≠ []) (hocc : OccursAt content search p) :
    lineEditFor content p search replace =
      { startLine := 1 + s.above.length
        endLine := s.above.length + s.touched.length
        expect := List.intercalate ['\n'] s.touched
        replace := s.lead ++ kept search replace ++ s.tail } := by
  have hparts := parts s hsearch hocc
  have hpos := List.length_pos_iff.mpr hsearch
  have hbody : terminated s.touched = List.intercalate ['\n'] s.touched ++ ['\n'] :=
    terminated_eq s.touched_ne
  have htouched : (List.intercalate ['\n'] s.touched).count '\n' + 1 = s.touched.length := by
    rw [← s.count_touched, hbody, List.count_append]
    rfl
  have hstart : content.take (terminated s.above).length = terminated s.above := by
    have htake := congrArg (List.take (terminated s.above).length) hparts.before
    have hplace := s.place
    rwa [List.take_left, List.take_take, Nat.min_eq_left (by omega)] at htake
  have htail : (terminated s.above ++ List.intercalate ['\n'] s.touched).drop
      (p + search.length - 1 + 1) = s.tail := by
    have hplace := s.place
    have hdrop : (terminated s.above ++ (List.intercalate ['\n'] s.touched ++ ['\n'])).drop
        (p + search.length - 1 + 1) = s.rest := by
      rw [← hbody, s.text_eq, ← List.append_assoc, ← List.append_assoc]
      apply List.drop_left'
      simp only [List.length_append]
      omega
    rw [← List.append_assoc] at hdrop
    rw [Span.tail, ← hdrop, List.dropLast_drop_eq_drop_dropLast, List.dropLast_concat]
  unfold lineEditFor
  dsimp only
  rw [hparts.before, lineStart_eq s.lead_line, hparts.ends, hparts.upto, hstart, s.count_above,
    List.drop_left, List.drop_left, htail]
  congr 1
  omega

/-- The line edit passes the editor's checks. -/
theorem lineEditFor_passes (replace : Text) (s : Span (splitLines content).1 search p)
    (hsearch : search ≠ []) (hocc : OccursAt content search p) :
    (lineEditFor content p search replace).Passes (splitLines content).1 := by
  have hlen := congrArg List.length s.lines_eq
  have htouched := List.length_pos_iff.mpr s.touched_ne
  simp only [List.length_append] at hlen
  rw [lineEditFor_eq replace s hsearch hocc]
  refine ⟨Nat.le_add_right _ _, ?_, ?_, ?_⟩
  · show 1 + s.above.length ≤ s.above.length + s.touched.length
    omega
  · show s.above.length + s.touched.length ≤ _
    omega
  · show linesAt _ (1 + s.above.length) (s.above.length + s.touched.length) = _
    have hlines := congrArg (fun l => (l.take (s.above.length + s.touched.length)).drop
      (1 + s.above.length - 1)) s.lines_eq
    have hrun : ((s.above ++ s.touched ++ s.below).take (s.above.length + s.touched.length)).drop
        (1 + s.above.length - 1) = s.touched := by
      rw [← List.length_append, List.take_left, Nat.add_sub_cancel_left, List.drop_left]
    rw [linesAt]
    exact congrArg _ (hlines.trans hrun)

/-! ### The lines touched, by their numbers -/

/-- A text found at `p` has a character on the line with `n` newlines before
it. -/
def Touches (content search : Text) (p n : ℕ) : Prop :=
  ∃ q, p ≤ q ∧ q < p + search.length ∧ (content.take q).count '\n' = n

theorem count_take_mono (content : Text) (h : p ≤ q) :
    (content.take p).count '\n' ≤ (content.take q).count '\n' :=
  (List.take_prefix_take_left h).sublist.count_le '\n'

/-- The lines of a span begin with the one its text begins on, -/
theorem Span.first (s : Span (splitLines content).1 search p) (hsearch : search ≠ [])
    (hocc : OccursAt content search p) : (content.take p).count '\n' = s.above.length := by
  rw [(parts s hsearch hocc).before, List.count_append, s.count_above,
    List.count_eq_zero_of_not_mem s.lead_line, Nat.add_zero]

/-- and end with the one its last character is on. -/
theorem Span.last (s : Span (splitLines content).1 search p) (hsearch : search ≠ [])
    (hocc : OccursAt content search p) :
    (content.take (p + search.length - 1)).count '\n' + 1 = s.above.length + s.touched.length := by
  obtain ⟨init, c, hinit⟩ : ∃ init c, search = init ++ [c] := by
    rcases List.eq_nil_or_concat search with hnil | ⟨init, c, hc⟩
    · exact absurd hnil hsearch
    · exact ⟨init, c, hc.trans List.concat_eq_append⟩
  have hinitlen : search.length = init.length + 1 := by
    rw [hinit, List.length_append, List.length_singleton]
  have htake : content.take (p + search.length - 1) = terminated s.above ++ s.lead ++ init := by
    have htext : content = terminated s.above ++ s.lead ++ init ++
        ([c] ++ content.drop (p + search.length)) := by
      refine (parts s hsearch hocc).text.trans ?_
      simp only [hinit, List.append_assoc]
    have hplace := s.place
    refine (congrArg (List.take _) htext).trans ?_
    apply List.take_left'
    simp only [List.length_append]
    omega
  have htext : (s.lead ++ search ++ s.rest).count '\n' = s.touched.length := by
    rw [← s.text_eq]
    exact s.count_touched
  rw [htake]
  simp only [hinit, List.count_append, s.count_above,
    List.count_eq_zero_of_not_mem s.lead_line] at htext ⊢
  rcases s.ends with ⟨hnewline, hrest⟩ | ⟨hother, tail, hrest, htail⟩
  -- the last character is the newline of its line, the one left out of the count
  · obtain rfl : c = '\n' := by
      rw [hinit, List.getLast?_concat] at hnewline
      exact Option.some.inj hnewline
    rw [hrest] at htext
    simp only [List.count_nil, List.count_singleton_self] at htext
    omega
  · have hc : c ≠ '\n' := by
      rw [hinit, List.getLast?_concat] at hother
      exact fun h => hother (congrArg some h)
    rw [hrest, List.count_append, List.count_eq_zero_of_not_mem htail] at htext
    simp only [List.count_singleton_self, List.count_singleton, beq_iff_eq, hc, if_false] at htext
    omega

/-- Two texts touch no line in common exactly when the line edits of them share
none. -/
theorem touches_apart_iff {search' replace' : Text} {p' : ℕ}
    (s : Span (splitLines content).1 search p) (s' : Span (splitLines content).1 search' p')
    (hsearch : search ≠ []) (hsearch' : search' ≠ []) (hocc : OccursAt content search p)
    (hocc' : OccursAt content search' p') :
    (∀ n, Touches content search p n → ¬ Touches content search' p' n) ↔
      (lineEditFor content p search replace).Apart (lineEditFor content p' search' replace') := by
  have hpasses := lineEditFor_passes replace s hsearch hocc
  have hpasses' := lineEditFor_passes replace' s' hsearch' hocc'
  have hpos := List.length_pos_iff.mpr hsearch
  have hpos' := List.length_pos_iff.mpr hsearch'
  have hfirst := s.first hsearch hocc
  have hfirst' := s'.first hsearch' hocc'
  have hlast := s.last hsearch hocc
  have hlast' := s'.last hsearch' hocc'
  rw [Bridge.Fs.apart_iff hpasses hpasses', lineEditFor_eq replace s hsearch hocc,
    lineEditFor_eq replace' s' hsearch' hocc']
  show _ ↔ s.above.length + s.touched.length < 1 + s'.above.length ∨
    s'.above.length + s'.touched.length < 1 + s.above.length
  constructor
  · intro hapart
    by_contra hmeet
    -- the text that begins later begins on a line of the other
    by_cases hbefore : p' < p
    · by_cases hin : p < p' + search'.length
      · exact hapart _ ⟨p, Nat.le_refl p, by omega, rfl⟩ ⟨p, hbefore.le, hin, rfl⟩
      · have hmono := count_take_mono content
          (show p' + search'.length - 1 ≤ p by omega)
        refine hapart s.above.length ⟨p, Nat.le_refl p, by omega, hfirst⟩
          ⟨p' + search'.length - 1, by omega, by omega, by omega⟩
    · by_cases hin : p' < p + search.length
      · exact hapart _ ⟨p', by omega, hin, rfl⟩ ⟨p', Nat.le_refl p', by omega, rfl⟩
      · have hmono := count_take_mono content
          (show p + search.length - 1 ≤ p' by omega)
        refine hapart s'.above.length ⟨p + search.length - 1, by omega, by omega, by omega⟩
          ⟨p', Nat.le_refl p', by omega, hfirst'⟩
  · rintro hside n ⟨q, hle, hlt, hq⟩ ⟨q', hle', hlt', hq'⟩
    have := count_take_mono content hle
    have := count_take_mono content hle'
    have := count_take_mono content (show q ≤ p + search.length - 1 by omega)
    have := count_take_mono content (show q' ≤ p' + search'.length - 1 by omega)
    omega

end AgentBlock.FsTools
