/-
AgentBlock/FsTools/Exact.lean

When the edits of whole lines the search / replace tool makes replace exactly
the texts they are made for.

What a call is for is the file with each text found replaced, and nothing else
(`exactText`).  The file is cut into pieces, one for the lines each text touches
(`pieces`); the line edits write them, and replacing the texts means them.

Main result: `joinLines_eq_exactText_iff` — the lines written are the exact text
exactly when the pieces land.
-/
import AgentBlock.FsTools.Pieces

namespace AgentBlock.FsTools

open Bridge.Fs

/-- An edit with a text to search for. -/
structure Snippet where
  search : Text
  replace : Text
  some_search : search ≠ []

def Snippet.toEdit (e : Snippet) : SnippetEdit := ⟨some e.search, some e.replace⟩

variable {content search replace lead tail : Text} {p n : ℕ} {edits : List Snippet}
  {e e' : Snippet}

/-! ### The exact text -/

/-- Where a text is first found. -/
def place (content search : Text) : ℕ := (find content search 0).getD 0

/-- The text found, and what is to stand in its place. -/
def Snippet.occurrence (content : Text) (e : Snippet) : Patch Char where
  first := place content e.search
  stop := place content e.search + e.search.length
  new := e.replace

/-- The file with each text found replaced, and every other character as it
was. -/
def exactText (content : Text) (edits : List Snippet) : Text :=
  Patch.patched (edits.map (Snippet.occurrence content)) content

/-! ### Its pieces -/

/-- What stands before a place on its line, -/
def leadAt (content : Text) (p : ℕ) : Text := (content.take p).rtakeWhile (· ≠ '\n')

/-- and after it. -/
def tailAt (content : Text) (p : ℕ) : Text := (content.drop p).takeWhile (· ≠ '\n')

/-- The piece of the lines a text touches.  One that ends with a newline keeps
it in `replace` or gains one; lines of which nothing is left are not written. -/
def pieceOf (lead search replace tail : Text) : Piece :=
  if search.getLast? = some '\n' then
    if replace.getLast? = some '\n' then
      if lead = [] ∧ replace = ['\n'] then .loses else .same (lead ++ replace)
    else if lead ++ replace = [] then .same [] else .gains (lead ++ replace)
  else if lead ++ replace ++ tail = [] then .loses
  else .same (lead ++ replace ++ tail ++ ['\n'])

/-- The lines a text touches, and the piece of them. -/
def Snippet.hunk (content : Text) (e : Snippet) : Patch Piece :=
  let p := place content e.search
  let stop := p + e.search.length
  { first := (content.take p).count '\n'
    stop := (content.take (stop - 1)).count '\n' + 1
    new := [pieceOf (leadAt content p) e.search e.replace (tailAt content stop)] }

/-- The pieces of a file: its lines, and the pieces of the lines touched. -/
def pieces (content : Text) (edits : List Snippet) : List Piece :=
  Patch.patched (edits.map (Snippet.hunk content))
    ((splitLines content).1.map fun l => .same (l ++ ['\n']))

/-! ### One piece -/

theorem leadAt_eq (s : Span (splitLines content).1 search p) (hsearch : search ≠ [])
    (hocc : OccursAt content search p) : leadAt content p = s.lead := by
  have hall : ∀ c ∈ s.lead, (decide (c ≠ '\n')) = true := by
    intro c hc
    exact decide_eq_true fun h => s.lead_line (h ▸ hc)
  rw [leadAt, (parts s hsearch hocc).before]
  rcases List.eq_nil_or_concat s.above with hnil | ⟨above, l, habove⟩
  · rw [hnil]
    exact List.rtakeWhile_eq_self_iff.mpr hall
  · rw [habove, List.concat_eq_append, terminated_concat, List.rtakeWhile, List.reverse_append,
      List.reverse_append, List.takeWhile_append_of_pos fun c hc => hall c (List.mem_reverse.mp hc)]
    simp

theorem tailAt_eq (s : Span (splitLines content).1 search p) (hsearch : search ≠ [])
    (hocc : OccursAt content search p) (hends : search.getLast? ≠ some '\n') :
    tailAt content (p + search.length) = s.tail ∧ s.rest = s.tail ++ ['\n'] := by
  obtain ⟨tail, hrest, htail⟩ := (s.ends.resolve_left fun h => hends h.1).2
  have hstail : s.tail = tail := by rw [Span.tail, hrest, List.dropLast_concat]
  obtain ⟨extra, hextra, hleft⟩ := (parts s hsearch hocc).left
  rw [hrest] at hleft
  obtain ⟨after, hafter, hgoes⟩ := line_goes_on hextra hleft
  have hall : ∀ c ∈ tail, (decide (c ≠ '\n')) = true := by
    intro c hc
    exact decide_eq_true fun h => htail (h ▸ hc)
  refine ⟨?_, by rw [hstail, hrest]⟩
  rw [hstail, tailAt, hafter, List.takeWhile_append_of_pos hall]
  rcases hgoes with rfl | ⟨more, rfl⟩
  · simp
  · simp

/-- What the line edit writes in place of the lines touched, newline and all. -/
def writtenLines (text : Text) : Text :=
  terminated (if text = [] then [] else text.splitOn '\n')

theorem writtenLines_eq (h : search ≠ []) : writtenLines search = search ++ ['\n'] := by
  rw [writtenLines, if_neg h, terminated_eq (List.splitOn_ne_nil _ _), List.intercalate_splitOn]

/-- The piece is written as the line edit writes it and means what replacing the
text does. -/
theorem pieceOf_eq (s : Span (splitLines content).1 search p) (hsearch : search ≠ [])
    (hocc : OccursAt content search p) (replace : Text) :
    let piece := pieceOf (leadAt content p) search replace (tailAt content (p + search.length))
    piece.written = writtenLines (s.lead ++ kept search replace ++ s.tail) ∧
      piece.meant = s.lead ++ replace ++ s.rest ∧ piece.Proper := by
  rw [leadAt_eq s hsearch hocc]
  rcases s.ends with ⟨hends, hrest⟩ | ⟨hends, -⟩
  · have htail : s.tail = [] := by rw [Span.tail, hrest]; rfl
    rw [htail, hrest, List.append_nil, List.append_nil]
    unfold pieceOf
    rw [if_pos hends]
    by_cases hreplace : replace.getLast? = some '\n'
    · obtain ⟨init, rfl⟩ := List.getLast?_eq_some_iff.mp hreplace
      -- both end in a newline, and the line edit puts that of the line back
      have hkept : kept search (init ++ ['\n']) = init := by
        rw [kept, if_pos ⟨hends, hreplace⟩, List.dropLast_concat]
      rw [if_pos hreplace, hkept]
      by_cases hlost : s.lead = [] ∧ init ++ ['\n'] = ['\n']
      · obtain ⟨hlead, hinit⟩ := hlost
        obtain rfl : init = [] := by simpa using hinit
        simp only [hlead]
        exact ⟨rfl, rfl, trivial⟩
      · have hne : s.lead ++ init ≠ [] := by
          intro hnil
          obtain ⟨hlead, rfl⟩ := List.append_eq_nil_iff.mp hnil
          exact hlost ⟨hlead, rfl⟩
        rw [if_neg hlost, writtenLines_eq hne]
        exact ⟨(List.append_assoc _ _ _).symm, rfl, trivial⟩
    · have hkept : kept search replace = replace := if_neg fun h => hreplace h.2
      rw [if_neg hreplace, hkept]
      by_cases hnil : s.lead ++ replace = []
      · rw [if_pos hnil, hnil]
        exact ⟨rfl, rfl, trivial⟩
      · rw [if_neg hnil, writtenLines_eq hnil]
        refine ⟨rfl, rfl, ?_⟩
        obtain ⟨init, c, hlast⟩ : ∃ init c, s.lead ++ replace = init ++ [c] := by
          rcases List.eq_nil_or_concat (s.lead ++ replace) with h | ⟨init, c, h⟩
          · exact absurd h hnil
          · exact ⟨init, c, h.trans List.concat_eq_append⟩
        refine ⟨init, c, hlast, ?_⟩
        rintro rfl
        have hget := congrArg List.getLast? hlast
        rw [List.getLast?_append, List.getLast?_concat] at hget
        cases hreplace' : replace.getLast? with
        | some d =>
            rw [hreplace'] at hget hreplace
            exact hreplace hget
        | none =>
            rw [hreplace'] at hget
            exact s.lead_line (List.mem_of_getLast? hget)
  -- the text ends within a line, whose rest is carried along
  · obtain ⟨htail, hrest⟩ := tailAt_eq s hsearch hocc hends
    rw [htail, hrest]
    have hkept : kept search replace = replace := if_neg fun h => hends h.1
    unfold pieceOf
    rw [if_neg hends, hkept]
    by_cases hnil : s.lead ++ replace ++ s.tail = []
    · rw [if_pos hnil, hnil]
      refine ⟨rfl, ?_, trivial⟩
      rw [← List.append_assoc, hnil]
      rfl
    · rw [if_neg hnil, writtenLines_eq hnil]
      exact ⟨rfl, List.append_assoc _ _ _, trivial⟩

/-! ### The whole file -/

/-- The edit of whole lines that the tool makes of an edit. -/
def Snippet.request (content : Text) (e : Snippet) : EditRequest :=
  lineEditFor content (place content e.search) e.search e.replace

def Snippet.Found (content : Text) (e : Snippet) : Prop :=
  OccursAt content e.search (place content e.search)

/-- No line is touched by both. -/
def Snippet.Apart (content : Text) (e e' : Snippet) : Prop :=
  ∀ n, Touches content e.search (place content e.search) n →
    ¬ Touches content e'.search (place content e'.search) n

theorem Snippet.Apart.symm (h : e.Apart content e') : e'.Apart content e :=
  fun n hn hn' => h n hn' hn

theorem occursAt_terminated (hsearch : search ≠ []) (h : OccursAt content search p) :
    OccursAt (terminated (splitLines content).1) search p := by
  have hle := h.le hsearch
  rw [OccursAt, terminated_splitLines, List.drop_append_of_le_length (by omega)]
  exact h.trans (List.prefix_append _ _)

theorem Snippet.Found.span (h : e.Found content) :
    Nonempty (Span (splitLines content).1 e.search (place content e.search)) :=
  span_exists (fun _ hl => newline_not_mem hl) e.some_search (occursAt_terminated e.some_search h)

theorem Snippet.Found.occurrence_fits (h : e.Found content) :
    (e.occurrence content).Fits content.length := by
  have hpos := List.length_pos_iff.mpr e.some_search
  refine ⟨?_, h.le e.some_search⟩
  show place content e.search < place content e.search + e.search.length
  omega

/-- The lines of a piece are those of the span. -/
theorem Snippet.Found.hunk_range (h : e.Found content)
    (s : Span (splitLines content).1 e.search (place content e.search)) :
    (e.hunk content).first = s.above.length ∧
      (e.hunk content).stop = s.above.length + s.touched.length :=
  ⟨s.first e.some_search h, s.last e.some_search h⟩

theorem Snippet.Found.hunk_fits (h : e.Found content) :
    (e.hunk content).Fits (splitLines content).1.length := by
  obtain ⟨s⟩ := h.span
  obtain ⟨hfirst, hstop⟩ := h.hunk_range s
  have hlen := congrArg List.length s.lines_eq
  have htouched := List.length_pos_iff.mpr s.touched_ne
  simp only [List.length_append] at hlen
  rw [Patch.Fits, hfirst, hstop]
  omega

/-- The line edits write the pieces. -/
theorem terminated_edited (hfound : ∀ e ∈ edits, e.Found content) :
    terminated (edited (edits.map (Snippet.request content)) (splitLines content).1) =
      written (pieces content edits) := by
  rw [edited, List.map_map]
  apply Patch.flatMap_patched
  · intro e he
    obtain ⟨s⟩ := (hfound e he).span
    obtain ⟨hfirst, hstop⟩ := (hfound e he).hunk_range s
    have hrequest := lineEditFor_eq e.replace s e.some_search (hfound e he)
    rw [hfirst, hstop]
    show ((e.request content).startLine - 1 = _) ∧ ((e.request content).endLine = _)
    rw [Snippet.request, hrequest]
    exact ⟨Nat.add_sub_cancel_left _ _, rfl⟩
  · intro e he
    obtain ⟨s⟩ := (hfound e he).span
    have hpiece := (pieceOf_eq s e.some_search (hfound e he) e.replace).1
    have hrequest := lineEditFor_eq e.replace s e.some_search (hfound e he)
    show writtenLines (e.request content).replace = Piece.written _ ++ []
    rw [List.append_nil, Snippet.request, hrequest]
    exact hpiece.symm
  · exact fun l => rfl

theorem meant_cells (lines : List Text) :
    meant (lines.map fun l => .same (l ++ ['\n'])) = terminated lines := by
  rw [meant, List.flatMap_map]
  rfl

theorem meant_append (left right : List Piece) :
    meant (left ++ right) = meant left ++ meant right :=
  List.flatMap_append

/-- The texts found are in order, and so are the lines they touch. -/
def InOrder (content : Text) (edits : List Snippet) : Prop :=
  edits.Pairwise fun e e' =>
    (e.occurrence content).stop ≤ (e'.occurrence content).first ∧
      (e.hunk content).stop ≤ (e'.hunk content).first

theorem InOrder.occurrences (h : InOrder content edits) :
    (edits.map (Snippet.occurrence content)).Pairwise fun p q => p.stop ≤ q.first :=
  List.pairwise_map.mpr (h.imp And.left)

theorem InOrder.hunks (h : InOrder content edits) :
    (edits.map (Snippet.hunk content)).Pairwise fun p q => p.stop ≤ q.first :=
  List.pairwise_map.mpr (h.imp And.right)

theorem occurrences_fit (hfound : ∀ e ∈ edits, e.Found content) (hn : content.length ≤ n) :
    ∀ q ∈ edits.map (Snippet.occurrence content), q.Fits n := by
  intro q hq
  obtain ⟨e, he, rfl⟩ := List.mem_map.mp hq
  have hfits := (hfound e he).occurrence_fits
  exact ⟨hfits.1, hfits.2.trans hn⟩

theorem hunks_fit (hfound : ∀ e ∈ edits, e.Found content) :
    ∀ q ∈ edits.map (Snippet.hunk content), q.Fits (splitLines content).1.length := by
  intro q hq
  obtain ⟨e, he, rfl⟩ := List.mem_map.mp hq
  exact (hfound e he).hunk_fits

/-- Replacing the texts found comes to what the pieces mean. -/
theorem patched_meant (hfound : ∀ e ∈ edits, e.Found content) (hordered : InOrder content edits) :
    Patch.patched (edits.map (Snippet.occurrence content)) (terminated (splitLines content).1) =
      meant (pieces content edits) := by
  induction edits with
  | nil =>
      rw [pieces, List.map_nil, Patch.patched_nil, List.map_nil, Patch.patched_nil, meant_cells]
  | cons e edits ih =>
      have he := hfound e List.mem_cons_self
      obtain ⟨s⟩ := he.span
      obtain ⟨hfirst, hstop⟩ := he.hunk_range s
      have hmeans := (pieceOf_eq s e.some_search he e.replace).2.1
      have hplace := s.place
      have hchars : terminated (splitLines content).1 =
          terminated s.above ++ s.lead ++ e.search ++ (s.rest ++ terminated s.below) := by
        refine (congrArg terminated s.lines_eq).trans ?_
        rw [terminated_append, terminated_append, s.text_eq]
        simp only [List.append_assoc]
      have hlong : content.length ≤ (terminated (splitLines content).1).length := by
        rw [terminated_splitLines, List.length_append]
        omega
      -- what is left of either list behind this edit
      obtain ⟨chars, hchars₁, hchars₂⟩ := Patch.patched_cons_eq (occurrences_fit hfound hlong)
        hordered.occurrences
      have hcells : ∀ q ∈ (e :: edits).map (Snippet.hunk content),
          q.Fits ((splitLines content).1.map fun l => Piece.same (l ++ ['\n'])).length := by
        rw [List.length_map]
        exact hunks_fit hfound
      obtain ⟨cells, hcells₁, hcells₂⟩ := Patch.patched_cons_eq hcells hordered.hunks
      have hih := ih (fun x hx => hfound x (List.mem_cons_of_mem _ hx))
        (List.pairwise_cons.mp hordered).2
      have habove : (splitLines content).1.take s.above.length = s.above := by
        refine (congrArg (List.take _) s.lines_eq).trans ?_
        rw [List.append_assoc, List.take_left]
      have hthrough : (splitLines content).1.take (s.above.length + s.touched.length) =
          s.above ++ s.touched := by
        refine (congrArg (List.take _) s.lines_eq).trans ?_
        rw [← List.length_append, List.take_left]
      have htake : (terminated (splitLines content).1).take (e.occurrence content).stop =
          terminated s.above ++ s.lead ++ e.search := by
        rw [hchars]
        apply List.take_left'
        simp only [List.length_append, ← hplace]
        rfl
      have htakeBefore : (terminated (splitLines content).1).take (e.occurrence content).first =
          terminated s.above ++ s.lead := by
        rw [hchars, List.append_assoc _ e.search]
        apply List.take_left'
        rw [List.length_append, ← hplace]
        rfl
      have hleft : chars = s.rest ++ meant cells := by
        rw [hchars₁, pieces, hcells₁, meant_append, ← List.map_take, meant_cells, hstop, hthrough,
          htake, terminated_append, s.text_eq] at hih
        simp only [List.append_assoc] at hih
        exact List.append_cancel_left (List.append_cancel_left (List.append_cancel_left hih))
      show Patch.patched (e.occurrence content :: _) _ =
        meant (Patch.patched (e.hunk content :: _) _)
      rw [hchars₂, hcells₂, meant_append, meant_append, ← List.map_take, meant_cells, hfirst,
        habove, htakeBefore, hleft]
      show _ = terminated s.above ++ (Piece.meant _ ++ []) ++ meant cells
      rw [hmeans]
      show terminated s.above ++ s.lead ++ e.replace ++ _ = _
      simp only [List.append_assoc, List.append_nil]

/-- Texts that touch no line in common can be put in order. -/
theorem exists_inOrder (hapart : edits.Pairwise (Snippet.Apart content)) :
    ∃ sorted, sorted.Perm edits ∧ InOrder content sorted := by
  have htotal : Std.Total fun e e' : Snippet => place content e.search ≤ place content e'.search :=
    ⟨fun a b => Nat.le_total _ _⟩
  have htrans : IsTrans Snippet fun e e' => place content e.search ≤ place content e'.search :=
    ⟨fun a b c => Nat.le_trans⟩
  obtain ⟨sorted, hsorted⟩ : ∃ sorted, sorted = edits.insertionSort fun e e' =>
      place content e.search ≤ place content e'.search := ⟨_, rfl⟩
  have hperm : sorted.Perm edits := hsorted ▸ List.perm_insertionSort _ _
  have hle : sorted.Pairwise fun e e' => place content e.search ≤ place content e'.search :=
    hsorted ▸ List.pairwise_insertionSort _ _
  have hapart' := (hperm.pairwise_iff Snippet.Apart.symm).mpr hapart
  refine ⟨sorted, hperm, (hle.and hapart').imp fun {e e'} h => ?_⟩
  obtain ⟨hplace, hno⟩ := h
  have hpos := List.length_pos_iff.mpr e.some_search
  have hpos' := List.length_pos_iff.mpr e'.some_search
  have hafter : place content e.search + e.search.length ≤ place content e'.search := by
    by_contra hin
    exact hno _ ⟨_, hplace, Nat.not_le.mp hin, rfl⟩ ⟨_, Nat.le_refl _, by omega, rfl⟩
  refine ⟨hafter, ?_⟩
  -- the last line of the one is not the first of the other
  have hmono := count_take_mono content
    (show place content e.search + e.search.length - 1 ≤ place content e'.search by omega)
  refine Nat.lt_of_le_of_ne hmono fun heq => ?_
  exact hno _ ⟨_, by omega, by omega, heq⟩ ⟨_, Nat.le_refl _, by omega, rfl⟩

theorem InOrder.exactText_eq {sorted : List Snippet} (h : InOrder content sorted)
    (hfound : ∀ e ∈ sorted, e.Found content) (hperm : sorted.Perm edits) :
    exactText content edits = exactText content sorted := by
  have hfits := occurrences_fit hfound (Nat.le_refl _)
  refine Patch.patched_perm hfits ?_ (hperm.symm.map _)
  refine List.Pairwise.imp_of_mem (fun hp hq hlt => ?_) h.occurrences
  exact (Patch.apart_iff (hfits _ hp) (hfits _ hq)).mpr (Or.inl hlt)

theorem InOrder.pieces_eq {sorted : List Snippet} (h : InOrder content sorted)
    (hfound : ∀ e ∈ sorted, e.Found content) (hperm : sorted.Perm edits) :
    pieces content edits = pieces content sorted := by
  have hfits := hunks_fit hfound
  refine Patch.patched_perm hfits ?_ (hperm.symm.map _)
  refine List.Pairwise.imp_of_mem (fun hp hq hlt => ?_) h.hunks
  exact (Patch.apart_iff (hfits _ hp) (hfits _ hq)).mpr (Or.inl hlt)

theorem pieces_proper (hfound : ∀ e ∈ edits, e.Found content) :
    ∀ piece ∈ pieces content edits, piece.Proper := by
  intro piece hpiece
  rcases Patch.mem_patched hpiece with hcell | ⟨q, hq, hnew⟩
  · obtain ⟨l, -, rfl⟩ := List.mem_map.mp hcell
    trivial
  · obtain ⟨e, he, rfl⟩ := List.mem_map.mp hq
    obtain ⟨s⟩ := (hfound e he).span
    rw [List.mem_singleton.mp hnew]
    exact (pieceOf_eq s e.some_search (hfound e he) e.replace).2.2

/-- The file as it is meant, and the newline it may lack at its end. -/
theorem meant_pieces (hfound : ∀ e ∈ edits, e.Found content)
    (hapart : edits.Pairwise (Snippet.Apart content)) :
    exactText content edits ++ (if (splitLines content).2 then [] else ['\n']) =
      meant (pieces content edits) := by
  obtain ⟨sorted, hperm, hordered⟩ := exists_inOrder hapart
  have hfound' : ∀ e ∈ sorted, e.Found content := fun e he => hfound e (hperm.mem_iff.mp he)
  rw [hordered.exactText_eq hfound' hperm, hordered.pieces_eq hfound' hperm,
    ← patched_meant hfound' hordered, terminated_splitLines,
    Patch.patched_append (occurrences_fit hfound' (Nat.le_refl _))]
  rfl

/-- **The lines written are the exact text** exactly when the pieces land. -/
theorem joinLines_eq_exactText_iff (hfound : ∀ e ∈ edits, e.Found content)
    (hapart : edits.Pairwise (Snippet.Apart content)) :
    joinLines (edited (edits.map (Snippet.request content)) (splitLines content).1)
        (splitLines content).2 = exactText content edits ↔
      Lands (pieces content edits) := by
  have hwritten := terminated_edited hfound
  have hmeant := meant_pieces hfound hapart
  obtain ⟨out, hout⟩ : ∃ out, out =
      edited (edits.map (Snippet.request content)) (splitLines content).1 := ⟨_, rfl⟩
  obtain ⟨extra, hextra⟩ : ∃ extra, extra = if (splitLines content).2 then [] else ['\n'] :=
    ⟨_, rfl⟩
  have hjoin : joinLines out (splitLines content).2 ++ extra =
      List.intercalate ['\n'] out ++ ['\n'] := by
    rw [hextra, joinLines]
    cases (splitLines content).2 <;> simp
  rw [← hout] at hwritten ⊢
  rw [← hextra] at hmeant
  -- both with the newline the file may lack
  rw [← List.append_left_inj extra, hjoin, hmeant]
  unfold Lands
  rcases eq_or_ne out [] with hnil | hne
  · have hempty : written (pieces content edits) = [] := by rw [← hwritten, hnil]; rfl
    rw [if_pos hempty, hnil, meant_of_written_nil hempty]
    show List.replicate 1 '\n' = _ ↔ _
    rw [List.replicate_inj]
    constructor
    · exact fun h => h.1.symm
    · exact fun h => ⟨h.symm, Or.inr rfl⟩
  · have hsome : written (pieces content edits) ≠ [] := by
      rw [← hwritten, terminated_eq hne]
      simp
    rw [if_neg hsome, ← terminated_eq hne, hwritten]
    exact written_eq_meant_iff (pieces_proper hfound) false

end AgentBlock.FsTools
