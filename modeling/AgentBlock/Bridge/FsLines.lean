/-
AgentBlock/Bridge/FsLines.lean

Which lines an edit changes.

An edit that is admitted names ranges of lines of the file, no two of them sharing a
line; what it is for is the file with each range replaced and every other line
as it was (`edited`).  The splices come to that, and joining and splitting again
gives the lines back unless the edits leave none, or leave an empty one last in
a file that did not end with a newline (`Rejoins`).

Main results:

* `plan_ok_iff` — the checks of an edit pass exactly when it is admitted;
* `splitLines_joinLines` — which lines a text is joined of and splits into;
* `editsNamedLines_iff` — when an edit changes the lines it names and nothing
  else.
-/
import AgentBlock.Bridge.FsHistory
import AgentBlock.Lib.Patch
import AgentBlock.Lib.Split

namespace AgentBlock.Bridge.Fs

variable {versionOf : Text → Text} {w w' : World} {i j : ℕ} {opts : EditOpts}
  {content new : Text} {lines : List Text} {edits edits' : List EditRequest} {e e' : EditRequest}
  {trailing : Bool}

/-! ### What an edit is for -/

/-- The lines an edit names, and the lines of its text in their place: none
where the text is empty. -/
def EditRequest.patch (e : EditRequest) : Patch Text where
  first := e.startLine - 1
  stop := e.endLine
  new := if e.replace = [] then [] else e.replace.splitOn '\n'

/-- The lines outside the ranges in order, and each range replaced. -/
def edited (edits : List EditRequest) (lines : List Text) : List Text :=
  Patch.patched (edits.map EditRequest.patch) lines

/-- The edit names lines that are there, and they are what it expects. -/
def EditRequest.Passes (lines : List Text) (e : EditRequest) : Prop :=
  1 ≤ e.startLine ∧ e.startLine ≤ e.endLine ∧ e.endLine ≤ lines.length ∧
    linesAt lines e.startLine e.endLine = e.expect

instance : DecidablePred (EditRequest.Passes lines) := fun _ =>
  inferInstanceAs (Decidable (_ ∧ _ ∧ _ ∧ _))

/-- The edit names the line. -/
def EditRequest.Names (e : EditRequest) (n : ℕ) : Prop := e.startLine ≤ n ∧ n ≤ e.endLine

def EditRequest.Apart (e e' : EditRequest) : Prop := ∀ n, e.Names n → ¬ e'.Names n

/-- The version the edit is based on is the one the text has. -/
def Current (versionOf : Text → Text) (opts : EditOpts) (content : Text) : Prop :=
  ∀ base, opts.base = some base → base = [] ∨ base = versionOf content

/-- What has to be so for an edit to be made. -/
structure Admitted (versionOf : Text → Text) (opts : EditOpts) (content : Text)
    (edits : List EditRequest) : Prop where
  current : Current versionOf opts content
  asked : opts.edits = some edits
  some_edit : edits ≠ []
  passes : ∀ e ∈ edits, e.Passes (splitLines content).1
  apart : edits.Pairwise EditRequest.Apart

/-! ### The checks -/

theorem checkEdit_eq_none {index : ℕ} : checkEdit lines index e = none ↔ e.Passes lines := by
  unfold checkEdit EditRequest.Passes
  split
  next hrange =>
    apply iff_of_false (Option.some_ne_none _)
    rintro ⟨hfirst, hle, -⟩
    omega
  next hrange =>
    split
    next hout =>
      apply iff_of_false (Option.some_ne_none _)
      rintro ⟨-, -, hlen, -⟩
      omega
    next hout =>
      have hthere : 1 ≤ e.startLine ∧ e.startLine ≤ e.endLine ∧ e.endLine ≤ lines.length := by
        omega
      dsimp only
      split
      next hexpect => exact iff_of_false (Option.some_ne_none _) fun h => hexpect h.2.2.2
      next hexpect =>
        exact iff_of_true rfl ⟨hthere.1, hthere.2.1, hthere.2.2, not_ne_iff.mp hexpect⟩

/-- A failure names the edit it is about. -/
theorem checkEdit_names {index : ℕ} {failure : EditFailure}
    (h : checkEdit lines index e = some failure) :
    (failure.index, failure.startLine, failure.endLine) = (index, e.startLine, e.endLine) := by
  unfold checkEdit at h
  split at h
  · cases h; rfl
  · split at h
    · cases h; rfl
    · dsimp only at h
      split at h
      · cases h; rfl
      · cases h

/-- The edits with their places in the list, as the checks count them. -/
def numbered (edits : List EditRequest) : List (ℕ × EditRequest) :=
  edits.zipIdx.map fun r => (r.2 + 1, r.1)

theorem numbered_snd (edits : List EditRequest) : (numbered edits).map Prod.snd = edits := by
  rw [numbered, List.map_map]
  exact List.zipIdx_map_fst 0 edits

theorem mem_of_numbered {r : ℕ × EditRequest} (h : r ∈ numbered edits) : r.2 ∈ edits := by
  rw [← numbered_snd edits]
  exact List.mem_map_of_mem h

/-- The failures are those of the edits that do not pass, in order. -/
theorem failures_names (lines : List Text) (rs : List (ℕ × EditRequest)) :
    (rs.filterMap fun r => checkEdit lines r.1 r.2).map
        (fun f => (f.index, f.startLine, f.endLine)) =
      (rs.filter fun r => ¬ r.2.Passes lines).map fun r => (r.1, r.2.startLine, r.2.endLine) := by
  induction rs with
  | nil => rfl
  | cons r rs ih =>
      cases hcheck : checkEdit lines r.1 r.2 with
      | none =>
          have hpasses := checkEdit_eq_none.mp hcheck
          rw [List.filter_cons_of_neg (by simpa using hpasses), ← ih, List.filterMap_cons, hcheck]
      | some failure =>
          have hfails : ¬ r.2.Passes lines := fun h => by
            rw [checkEdit_eq_none.mpr h] at hcheck
            cases hcheck
          rw [List.filter_cons_of_pos (by simpa using hfails), List.map_cons, ← ih,
            ← checkEdit_names hcheck, List.filterMap_cons, hcheck, List.map_cons]

theorem failures_eq_nil :
    (numbered edits).filterMap (fun r => checkEdit lines r.1 r.2) = [] ↔
      ∀ e ∈ edits, e.Passes lines := by
  rw [List.filterMap_eq_nil_iff]
  constructor
  · intro h e he
    rw [← numbered_snd edits] at he
    obtain ⟨r, hr, rfl⟩ := List.mem_map.mp he
    exact checkEdit_eq_none.mp (h r hr)
  · intro h r hr
    exact checkEdit_eq_none.mpr (h r.2 (mem_of_numbered hr))

theorem EditRequest.Passes.fits (h : e.Passes lines) : e.patch.Fits lines.length := by
  obtain ⟨hfirst, hle, hlen, -⟩ := h
  refine ⟨?_, hlen⟩
  show e.startLine - 1 < e.endLine
  omega

theorem apart_iff (h : e.Passes lines) (h' : e'.Passes lines) :
    e.Apart e' ↔ e.endLine < e'.startLine ∨ e'.endLine < e.startLine := by
  obtain ⟨hfirst, hle, -⟩ := h
  obtain ⟨hfirst', hle', -⟩ := h'
  constructor
  · intro happart
    have hmax := happart (max e.startLine e'.startLine)
    simp only [EditRequest.Names] at hmax
    omega
  · rintro hside n ⟨hn₁, hn₂⟩ ⟨hn₁', hn₂'⟩
    omega

/-- No neighbours of a list share a line when no two of it do, its ranges being
in the order of their first lines. -/
theorem findOverlap_eq_none {rs : List (ℕ × EditRequest)}
    (hpasses : ∀ r ∈ rs, r.2.Passes lines) :
    findOverlap rs = none ↔ rs.Pairwise fun r r' => r.2.endLine < r'.2.startLine := by
  induction rs with
  | nil => exact iff_of_true rfl List.Pairwise.nil
  | cons r rs ih =>
      have hrest := ih fun x hx => hpasses x (List.mem_cons_of_mem _ hx)
      cases rs with
      | nil => exact iff_of_true rfl (List.pairwise_singleton _ _)
      | cons r' rs =>
          rw [List.pairwise_cons]
          show (if r.2.endLine ≥ r'.2.startLine then _ else _) = none ↔ _
          split
          next hmeet =>
            apply iff_of_false (Option.some_ne_none _)
            rintro ⟨hfirst, -⟩
            have := hfirst r' List.mem_cons_self
            omega
          next hclear =>
            rw [hrest]
            refine ⟨fun hall => ⟨?_, hall⟩, fun h => h.2⟩
            -- the one after it begins later still
            intro x hx
            rcases List.mem_cons.mp hx with rfl | hx
            · omega
            · have hnext := (List.pairwise_cons.mp hall).1 x hx
              have := (hpasses r' (List.mem_cons_of_mem _ List.mem_cons_self)).2.1
              omega

/-- The edits in the order of their first lines. -/
def ordered (edits : List EditRequest) : List (ℕ × EditRequest) :=
  (numbered edits).insertionSort fun a b => a.2.startLine ≤ b.2.startLine

theorem ordered_perm (edits : List EditRequest) : ((ordered edits).map Prod.snd).Perm edits := by
  have h := (List.perm_insertionSort (fun a b : ℕ × EditRequest => a.2.startLine ≤ b.2.startLine)
    (numbered edits)).map Prod.snd
  rwa [numbered_snd] at h

theorem ordered_sorted (edits : List EditRequest) :
    (ordered edits).Pairwise fun a b => a.2.startLine ≤ b.2.startLine := by
  have htotal : Std.Total fun a b : ℕ × EditRequest => a.2.startLine ≤ b.2.startLine :=
    ⟨fun a b => Nat.le_total _ _⟩
  have htrans : IsTrans (ℕ × EditRequest) fun a b => a.2.startLine ≤ b.2.startLine :=
    ⟨fun a b c => Nat.le_trans⟩
  exact List.pairwise_insertionSort _ _

theorem passes_of_ordered (hpasses : ∀ e ∈ edits, e.Passes lines) :
    ∀ r ∈ ordered edits, r.2.Passes lines := by
  intro r hr
  exact hpasses r.2 ((ordered_perm edits).mem_iff.mp (List.mem_map_of_mem hr))

theorem Apart.symm (h : e.Apart e') : e'.Apart e := fun n hn hn' => h n hn' hn

theorem findOverlap_ordered (hpasses : ∀ e ∈ edits, e.Passes lines) :
    findOverlap (ordered edits) = none ↔ edits.Pairwise EditRequest.Apart := by
  have hord := passes_of_ordered hpasses
  rw [findOverlap_eq_none hord, ← (ordered_perm edits).pairwise_iff Apart.symm, List.pairwise_map]
  constructor
  · intro h
    refine h.imp_of_mem fun hr hr' hlt => ?_
    exact (apart_iff (hord _ hr) (hord _ hr')).mpr (Or.inl hlt)
  · intro h
    refine ((ordered_sorted edits).and h).imp_of_mem fun {r r'} hr hr' hboth => ?_
    rcases (apart_iff (hord r hr) (hord r' hr')).mp hboth.2 with hlt | hlt
    · exact hlt
    · have := (hord r' hr').2.1
      have := hboth.1
      omega

/-! ### Joining and splitting -/

theorem splitLines_newline (body : Text) :
    splitLines (body ++ ['\n']) = (body.splitOn '\n', true) := by
  unfold splitLines
  rw [List.getLast?_concat, List.dropLast_concat]
  by_cases hbody : body = []
  · subst hbody
    rfl
  · simp [hbody]

theorem splitLines_of_last (h : content.getLast? ≠ some '\n') :
    splitLines content = (content.splitOn '\n', false) := by
  unfold splitLines
  simp [h]

/-- A text that ends with a newline, and one that does not. -/
theorem newline_cases (content : Text) :
    (∃ body, content = body ++ ['\n']) ∨ content.getLast? ≠ some '\n' := by
  by_cases h : content.getLast? = some '\n'
  · obtain ⟨body, hbody⟩ := List.getLast?_eq_some_iff.mp h
    exact Or.inl ⟨body, hbody⟩
  · exact Or.inr h

theorem splitLines_ne_nil (content : Text) : (splitLines content).1 ≠ [] := by
  rcases newline_cases content with ⟨body, rfl⟩ | h
  · rw [splitLines_newline]
    exact List.splitOn_ne_nil _ _
  · rw [splitLines_of_last h]
    exact List.splitOn_ne_nil _ _

theorem newline_not_mem {l : Text} (h : l ∈ (splitLines content).1) : '\n' ∉ l := by
  rcases newline_cases content with ⟨body, rfl⟩ | hlast
  · rw [splitLines_newline] at h
    exact Split.not_mem_splitOn h
  · rw [splitLines_of_last hlast] at h
    exact Split.not_mem_splitOn h

/-- Joining what was split gives the text back. -/
theorem joinLines_splitLines (content : Text) :
    joinLines (splitLines content).1 (splitLines content).2 = content := by
  rcases newline_cases content with ⟨body, rfl⟩ | h
  · rw [splitLines_newline]
    show List.intercalate ['\n'] _ ++ ['\n'] = _
    rw [List.intercalate_splitOn]
  · rw [splitLines_of_last h]
    show List.intercalate ['\n'] _ ++ [] = _
    rw [List.intercalate_splitOn, List.append_nil]

theorem intercalate_concat (l : Text) (h : lines ≠ []) :
    List.intercalate ['\n'] (lines ++ [l]) = List.intercalate ['\n'] lines ++ '\n' :: l := by
  induction lines with
  | nil => exact absurd rfl h
  | cons l₀ lines ih =>
      cases lines with
      | nil => simp [List.intercalate]
      | cons l₁ lines =>
          have hrest := ih (List.cons_ne_nil _ _)
          rw [List.cons_append] at hrest
          rw [List.cons_append, List.cons_append, List.intercalate_cons_cons,
            List.intercalate_cons_cons, hrest]
          simp only [List.append_assoc]

/-- The lines, joined, are those lines when the text is split again. -/
def Rejoins (lines : List Text) (trailing : Bool) : Prop :=
  lines ≠ [] ∧ (trailing = true ∨ lines.length = 1 ∨ lines.getLast? ≠ some [])

/-- Joined lines end with a newline where the last of several is empty, and
only there. -/
theorem getLast?_intercalate (hlines : ∀ l ∈ lines, '\n' ∉ l) :
    (List.intercalate ['\n'] lines).getLast? = some '\n' ↔
      lines.length ≠ 1 ∧ lines.getLast? = some [] := by
  rcases List.eq_nil_or_concat lines with rfl | ⟨first, l, rfl⟩
  · simp [List.intercalate]
  · rw [List.concat_eq_append] at *
    have hl : '\n' ∉ l := hlines l (by simp)
    rcases eq_or_ne first [] with rfl | hfirst
    · have hlast : l.getLast? ≠ some '\n' := fun h => hl (List.mem_of_getLast? h)
      simpa [List.intercalate] using hlast
    · have hlen : (first ++ [l]).length ≠ 1 := by simpa using hfirst
      rw [intercalate_concat l hfirst, List.getLast?_concat, List.getLast?_append]
      cases hlast : ('\n' :: l).getLast? with
      | none => simp at hlast
      | some c =>
          rcases eq_or_ne l [] with rfl | hne
          · obtain rfl : '\n' = c := by simpa using hlast
            simpa using hfirst
          · have hc : c ∈ l := by
              rw [List.getLast?_cons, List.getLast?_eq_some_getLast hne] at hlast
              cases hlast
              exact List.getLast_mem hne
            have hcn : c ≠ '\n' := fun h => hl (h ▸ hc)
            simp [hne, hcn]

theorem splitLines_joinLines (hlines : ∀ l ∈ lines, '\n' ∉ l) :
    splitLines (joinLines lines trailing) = (lines, trailing) ↔ Rejoins lines trailing := by
  unfold Rejoins
  rcases eq_or_ne lines [] with rfl | hne
  · refine iff_of_false (fun h => ?_) (fun h => h.1 rfl)
    exact splitLines_ne_nil (joinLines [] trailing) (congrArg Prod.fst h)
  · have hsplit : (List.intercalate ['\n'] lines).splitOn '\n' = lines :=
      List.splitOn_intercalate '\n' hlines hne
    cases trailing with
    | true =>
        refine iff_of_true ?_ ⟨hne, Or.inl rfl⟩
        show splitLines (List.intercalate ['\n'] lines ++ ['\n']) = _
        rw [splitLines_newline, hsplit]
    | false =>
        have hjoin : joinLines lines false = List.intercalate ['\n'] lines := List.append_nil _
        rw [hjoin]
        by_cases hlast : (List.intercalate ['\n'] lines).getLast? = some '\n'
        · obtain ⟨hlen, hempty⟩ := (getLast?_intercalate hlines).mp hlast
          refine iff_of_false (fun h => ?_) ?_
          · obtain ⟨body, hbody⟩ := List.getLast?_eq_some_iff.mp hlast
            rw [hbody, splitLines_newline] at h
            exact Bool.noConfusion (congrArg Prod.snd h)
          · rintro ⟨-, hflag | hone | hlast'⟩
            · exact Bool.noConfusion hflag
            · exact hlen hone
            · exact hlast' hempty
        · refine iff_of_true (by rw [splitLines_of_last hlast, hsplit]) ⟨hne, Or.inr ?_⟩
          by_contra hboth
          rw [not_or, not_ne_iff] at hboth
          exact hlast ((getLast?_intercalate hlines).mpr hboth)

/-- The lines an edit leaves hold no newline. -/
theorem newline_not_mem_edited {l : Text} (h : l ∈ edited edits (splitLines content).1) :
    '\n' ∉ l := by
  rcases Patch.mem_patched h with h | ⟨p, hp, h⟩
  · exact newline_not_mem h
  · obtain ⟨e, -, rfl⟩ := List.mem_map.mp hp
    change l ∈ if e.replace = [] then [] else e.replace.splitOn '\n' at h
    split at h
    · exact absurd h List.not_mem_nil
    · exact Split.not_mem_splitOn h

/-! ### The plan -/

theorem stale_eq_none :
    (opts.base.filter fun base => base ≠ [] ∧ base ≠ versionOf content) = none ↔
      Current versionOf opts content := by
  rw [Option.filter_eq_none_iff]
  apply forall₂_congr
  intro base _
  simp only [decide_eq_true_eq, not_and_or, not_ne_iff]

/-- What is planned, once the version is the one the edit is based on. -/
theorem plan_of_current (hcurrent : Current versionOf opts content)
    (hasked : opts.edits = some edits) :
    plan versionOf opts content =
      match (numbered edits).filterMap fun r => checkEdit (splitLines content).1 r.1 r.2 with
      | first :: failures => .error (.rejected first (first :: failures))
      | [] =>
          if edits = [] then .error .noEdits
          else
            match findOverlap (ordered edits) with
            | some (index, other) => .error (.overlapping index other)
            | none => .ok (joinLines ((ordered edits).foldr (fun e lines => splice lines e.2)
                (splitLines content).1) (splitLines content).2, edits.length) := by
  unfold plan
  dsimp only
  rw [stale_eq_none.mpr hcurrent, hasked]
  dsimp only
  cases hfail : (numbered edits).filterMap fun r => checkEdit (splitLines content).1 r.1 r.2 with
  | nil =>
      rw [numbered] at hfail
      rw [hfail]
      rfl
  | cons first failures =>
      rw [numbered] at hfail
      rw [hfail]

/-- The splices of the edits, the last one first, replace every range. -/
theorem foldr_splice_eq (hpasses : ∀ e ∈ edits, e.Passes lines)
    (happart : edits.Pairwise EditRequest.Apart) :
    (ordered edits).foldr (fun e lines => splice lines e.2) lines = edited edits lines := by
  have hord := passes_of_ordered hpasses
  have hfits : ∀ p ∈ (ordered edits).map fun r => r.2.patch, p.Fits lines.length := by
    intro p hp
    obtain ⟨r, hr, rfl⟩ := List.mem_map.mp hp
    exact (hord r hr).fits
  have hlt := (findOverlap_eq_none hord).mp ((findOverlap_ordered hpasses).mpr happart)
  have hordered : ((ordered edits).map fun r => r.2.patch).Pairwise
      fun p q => p.stop ≤ q.first := by
    rw [List.pairwise_map]
    refine hlt.imp fun {r r'} h => ?_
    show r.2.endLine ≤ r'.2.startLine - 1
    omega
  have hspliced : (ordered edits).foldr (fun e lines => splice lines e.2) lines =
      ((ordered edits).map fun r => r.2.patch).foldr (fun p lines => Patch.splice lines p)
        lines := by
    rw [List.foldr_map]
    rfl
  have hperm : (edits.map EditRequest.patch).Perm ((ordered edits).map fun r => r.2.patch) := by
    have h := (ordered_perm edits).symm.map EditRequest.patch
    rwa [List.map_map] at h
  rw [hspliced, Patch.foldr_splice hfits hordered, edited]
  refine (Patch.patched_perm hfits (hordered.imp_of_mem fun hp hq h => ?_) hperm).symm
  exact (Patch.apart_iff (hfits _ hp) (hfits _ hq)).mpr (Or.inl h)

/-- An edit that is admitted is planned as what it is for, -/
theorem plan_of_admitted (h : Admitted versionOf opts content edits) :
    plan versionOf opts content =
      .ok (joinLines (edited edits (splitLines content).1) (splitLines content).2,
        edits.length) := by
  rw [plan_of_current h.current h.asked, failures_eq_nil.mpr h.passes]
  dsimp only
  rw [if_neg h.some_edit, (findOverlap_ordered h.passes).mpr h.apart]
  dsimp only
  rw [foldr_splice_eq h.passes h.apart]

/-- and one that is planned is admitted. -/
theorem plan_admitted {planned : Text × ℕ} (h : plan versionOf opts content = .ok planned) :
    ∃ edits, Admitted versionOf opts content edits := by
  by_cases hcurrent : Current versionOf opts content
  · cases hasked : opts.edits with
    | none =>
        unfold plan at h
        dsimp only at h
        rw [stale_eq_none.mpr hcurrent, hasked] at h
        cases h
    | some edits =>
        rw [plan_of_current hcurrent hasked] at h
        split at h
        · cases h
        next hfail =>
          have hpasses := failures_eq_nil.mp hfail
          split at h
          · cases h
          next hsome =>
            split at h
            · cases h
            next hoverlap =>
              exact ⟨edits, hcurrent, hasked, hsome, hpasses,
                (findOverlap_ordered hpasses).mp hoverlap⟩
  · obtain ⟨base, hbase⟩ := Option.ne_none_iff_exists'.mp (mt stale_eq_none.mp hcurrent)
    unfold plan at h
    dsimp only at h
    rw [hbase] at h
    cases h

theorem plan_ok_iff :
    (∃ planned, plan versionOf opts content = .ok planned) ↔
      ∃ edits, Admitted versionOf opts content edits :=
  ⟨fun ⟨_, h⟩ => plan_admitted h, fun ⟨_, h⟩ => ⟨_, plan_of_admitted h⟩⟩

/-- What is refused names every edit that does not pass, in order. -/
theorem plan_failures (hcurrent : Current versionOf opts content)
    (hasked : opts.edits = some edits) (hfails : ∃ e ∈ edits, ¬ e.Passes (splitLines content).1) :
    ∃ first failures, plan versionOf opts content = .error (.rejected first failures) ∧
      failures.head? = some first ∧
      failures.map (fun f => (f.index, f.startLine, f.endLine)) =
        ((numbered edits).filter fun r => ¬ r.2.Passes (splitLines content).1).map
          fun r => (r.1, r.2.startLine, r.2.endLine) := by
  have hplan := plan_of_current hcurrent hasked
  have hnames := failures_names (splitLines content).1 (numbered edits)
  cases hfail : (numbered edits).filterMap fun r => checkEdit (splitLines content).1 r.1 r.2 with
  | nil =>
      obtain ⟨e, he, hnot⟩ := hfails
      exact absurd (failures_eq_nil.mp hfail e he) hnot
  | cons first failures =>
      rw [hfail] at hplan hnames
      exact ⟨first, first :: failures, hplan, rfl, hnames⟩

/-- The order the edits are listed in says nothing of whether they are admitted. -/
theorem Admitted.perm (h : Admitted versionOf opts content edits) (hperm : edits'.Perm edits) :
    Admitted versionOf { opts with edits := some edits' } content edits' where
  current := h.current
  asked := rfl
  some_edit := fun hnil => h.some_edit (by rw [hnil] at hperm; exact hperm.nil_eq.symm)
  passes := fun e he => h.passes e (hperm.mem_iff.mp he)
  apart := (hperm.pairwise_iff Apart.symm).mpr h.apart

theorem Admitted.edited_perm (h : Admitted versionOf opts content edits)
    (hperm : edits'.Perm edits) :
    edited edits' (splitLines content).1 = edited edits (splitLines content).1 := by
  have hfits : ∀ p ∈ edits.map EditRequest.patch, p.Fits (splitLines content).1.length := by
    intro p hp
    obtain ⟨e, he, rfl⟩ := List.mem_map.mp hp
    exact (h.passes e he).fits
  refine Patch.patched_perm hfits ?_ (hperm.map EditRequest.patch)
  rw [List.pairwise_map]
  refine h.apart.imp_of_mem fun {e e'} he he' happart => ?_
  rw [Patch.apart_iff (h.passes e he).fits (h.passes e' he').fits]
  have hside := (apart_iff (h.passes e he) (h.passes e' he')).mp happart
  show e.endLine ≤ e'.startLine - 1 ∨ e'.endLine ≤ e.startLine - 1
  omega

/-! ### A call by itself -/

/-- What a call has answered. -/
def World.reply (w : World) (i : ℕ) : Option Reply :=
  match w.calls i with
  | some ⟨_, .done reply, _⟩ => some reply
  | _ => none

section Alone

variable (versionOf)

/-- An edit that no other call comes between: it reads and checks, and where
that is not the end of it writes and remembers. -/
def editAlone (w : World) (i : ℕ) (opts : EditOpts) : Option (World × Reply) :=
  (Steps.after (step versionOf) w [.call i (.edit opts), .read i true, .check i]).bind fun w =>
    match w.reply i with
    | some reply => some (w, reply)
    | none =>
        (Steps.after (step versionOf) w [.write i .ok, .remember i]).bind fun w =>
          (w.reply i).map fun reply => (w, reply)

/-- A rollback that no other call comes between. -/
def rollbackAlone (w : World) (i : ℕ) : Option (World × Reply) :=
  (Steps.after (step versionOf) w [.call i .rollback, .take i]).bind fun w =>
    match w.reply i with
    | some reply => some (w, reply)
    | none =>
        (Steps.after (step versionOf) w [.write i .ok]).bind fun w =>
          (w.reply i).map fun reply => (w, reply)

end Alone

theorem editAlone_error {reply : Reply} (hfile : w.file = some content) (hfree : w.calls i = none)
    (h : plan versionOf opts content = .error reply) :
    ∃ w', editAlone versionOf w i opts = some (w', reply) ∧ w'.file = w.file ∧
      w'.snapshot = w.snapshot := by
  refine ⟨?after, ?alone, ?rest⟩
  case alone =>
    simp only [editAlone, Steps.after, step, hfree, hfile, World.move, World.reply, h,
      Function.update_self, Option.bind_some, if_true]
    rfl
  case rest => exact ⟨hfile.symm, rfl⟩

theorem editAlone_ok {applied : ℕ} (hfile : w.file = some content) (hfree : w.calls i = none)
    (h : plan versionOf opts content = .ok (new, applied)) :
    ∃ w', editAlone versionOf w i opts = some (w', .ok applied (versionOf new)) ∧
      w'.file = some new ∧ w'.snapshot = some content := by
  refine ⟨?after, ?alone, ?rest⟩
  case alone =>
    simp only [editAlone, Steps.after, step, hfree, hfile, World.move, World.reply, h,
      Function.update_self, Option.bind_some, if_true]
    rfl
  case rest => exact ⟨rfl, rfl⟩

theorem rollbackAlone_restores (hsnapshot : w.snapshot = some content) (hfree : w.calls i = none) :
    ∃ w', rollbackAlone versionOf w i = some (w', .restored (versionOf content)) ∧
      w'.file = some content := by
  refine ⟨?after, ?alone, ?rest⟩
  case alone =>
    simp only [rollbackAlone, Steps.after, step, hfree, hsnapshot, World.move, World.reply,
      Function.update_self, Option.bind_some, if_true]
    rfl
  case rest => rfl

/-! ### The lines named and nothing else -/

section Spec

variable (versionOf)

/-- The edit changes the lines it names and nothing else, wherever the text it
reads is `content`. -/
structure EditsNamedLines (opts : EditOpts) (content : Text) : Prop where
  /-- It answers ok exactly when it is admitted. -/
  ok_iff : ∀ w i, w.file = some content → w.calls i = none →
    ((∃ w' reply, editAlone versionOf w i opts = some (w', reply) ∧ reply.isOk = true) ↔
      ∃ edits, Admitted versionOf opts content edits)
  /-- The file written splits into the lines the edit is for, and the old flag. -/
  lines : ∀ w i edits, w.file = some content → w.calls i = none →
    Admitted versionOf opts content edits →
    ∃ w' new, editAlone versionOf w i opts = some (w', .ok edits.length (versionOf new)) ∧
      w'.file = some new ∧
      splitLines new = (edited edits (splitLines content).1, (splitLines content).2)
  /-- In whatever order its edits are listed. -/
  anyOrder : ∀ w i edits edits', w.file = some content → w.calls i = none →
    Admitted versionOf opts content edits → edits'.Perm edits →
    ∃ w₁ w₂ reply, editAlone versionOf w i opts = some (w₁, reply) ∧
      editAlone versionOf w i { opts with edits := some edits' } = some (w₂, reply) ∧
      w₂.file = w₁.file
  /-- A rollback gives the old text back. -/
  restores : ∀ w i j edits w' reply, w.file = some content → w.calls i = none →
    Admitted versionOf opts content edits → editAlone versionOf w i opts = some (w', reply) →
    w'.calls j = none →
    ∃ w'', rollbackAlone versionOf w' j = some (w'', .restored (versionOf content)) ∧
      w''.file = some content
  /-- Otherwise nothing is changed, -/
  refused : ∀ w i, w.file = some content → w.calls i = none →
    (∀ edits, ¬ Admitted versionOf opts content edits) →
    ∃ w' reply, editAlone versionOf w i opts = some (w', reply) ∧ reply.isOk = false ∧
      w'.file = w.file ∧ w'.snapshot = w.snapshot
  /-- and the failures are all the edits that do not pass, in order, where they
  are checked at all. -/
  failures : ∀ w i edits, w.file = some content → w.calls i = none →
    Current versionOf opts content → opts.edits = some edits →
    (∃ e ∈ edits, ¬ e.Passes (splitLines content).1) →
    ∃ w' first failures, editAlone versionOf w i opts = some (w', .rejected first failures) ∧
      failures.head? = some first ∧
      failures.map (fun f => (f.index, f.startLine, f.endLine)) =
        ((numbered edits).filter fun r => ¬ r.2.Passes (splitLines content).1).map
          fun r => (r.1, r.2.startLine, r.2.endLine)

end Spec

/-- What an admitted edit writes splits as it should exactly when its lines
rejoin. -/
theorem splitLines_edited :
    splitLines (joinLines (edited edits (splitLines content).1) (splitLines content).2) =
        (edited edits (splitLines content).1, (splitLines content).2) ↔
      Rejoins (edited edits (splitLines content).1) (splitLines content).2 :=
  splitLines_joinLines fun _ hl => newline_not_mem_edited hl

theorem EditsNamedLines.rejoins (h : EditsNamedLines versionOf opts content)
    (hadmitted : Admitted versionOf opts content edits) :
    Rejoins (edited edits (splitLines content).1) (splitLines content).2 := by
  -- in a world where there is nothing but the file
  obtain ⟨w', new, halone, hfile, hsplit⟩ :=
    h.lines (World.init (some content)) 0 edits rfl rfl hadmitted
  obtain ⟨w₂, halone₂, hfile₂, -⟩ := editAlone_ok (w := World.init (some content)) (i := 0) rfl
    rfl (plan_of_admitted hadmitted)
  rw [halone₂] at halone
  obtain ⟨rfl, -⟩ := Prod.mk.inj (Option.some.inj halone)
  obtain rfl := Option.some.inj (hfile₂.symm.trans hfile)
  exact splitLines_edited.mp hsplit

/-- **An edit changes the lines it names and nothing else** exactly when the
lines it leaves rejoin. -/
theorem editsNamedLines_iff (versionOf : Text → Text) (opts : EditOpts) (content : Text) :
    EditsNamedLines versionOf opts content ↔
      ∀ edits, Admitted versionOf opts content edits →
        Rejoins (edited edits (splitLines content).1) (splitLines content).2 := by
  constructor
  · exact fun h edits hadmitted => h.rejoins hadmitted
  · intro hrejoins
    constructor
    case ok_iff =>
      intro w i hfile hfree
      rw [← plan_ok_iff]
      constructor
      · rintro ⟨w', reply, halone, hok⟩
        cases hplan : plan versionOf opts content with
        | ok planned => exact ⟨planned, rfl⟩
        | error reply' =>
            obtain ⟨w₂, halone₂, -⟩ := editAlone_error hfile hfree hplan
            rw [halone₂] at halone
            cases halone
            rw [plan_error hplan] at hok
            cases hok
      · rintro ⟨planned, hplan⟩
        obtain ⟨w', halone, -⟩ := editAlone_ok hfile hfree hplan
        exact ⟨w', _, halone, rfl⟩
    case lines =>
      intro w i edits hfile hfree hadmitted
      obtain ⟨w', halone, hfile', -⟩ := editAlone_ok hfile hfree (plan_of_admitted hadmitted)
      exact ⟨w', _, halone, hfile', splitLines_edited.mpr (hrejoins edits hadmitted)⟩
    case anyOrder =>
      intro w i edits edits' hfile hfree hadmitted hperm
      obtain ⟨w₁, halone₁, hfile₁, -⟩ := editAlone_ok hfile hfree (plan_of_admitted hadmitted)
      obtain ⟨w₂, halone₂, hfile₂, -⟩ :=
        editAlone_ok hfile hfree (plan_of_admitted (hadmitted.perm hperm))
      -- the edits are sorted before they are applied, so their order does not matter
      rw [hadmitted.edited_perm hperm, hperm.length_eq] at halone₂
      rw [hadmitted.edited_perm hperm] at hfile₂
      exact ⟨w₁, w₂, _, halone₁, halone₂, hfile₂.trans hfile₁.symm⟩
    case restores =>
      intro w i j edits w' reply hfile hfree hadmitted halone hj
      obtain ⟨w₂, halone₂, -, hsnapshot⟩ := editAlone_ok hfile hfree (plan_of_admitted hadmitted)
      rw [halone₂] at halone
      cases halone
      exact rollbackAlone_restores hsnapshot hj
    case refused =>
      intro w i hfile hfree hnot
      cases hplan : plan versionOf opts content with
      | ok planned =>
          obtain ⟨edits, hadmitted⟩ := plan_admitted hplan
          exact absurd hadmitted (hnot edits)
      | error reply =>
          obtain ⟨w', halone, hfile', hsnapshot⟩ := editAlone_error hfile hfree hplan
          exact ⟨w', reply, halone, plan_error hplan, hfile', hsnapshot⟩
    case failures =>
      intro w i edits hfile hfree hcurrent hasked hfails
      obtain ⟨first, failures, hplan, hhead, hnames⟩ := plan_failures hcurrent hasked hfails
      obtain ⟨w', halone, -⟩ := editAlone_error hfile hfree hplan
      exact ⟨w', first, failures, halone, hhead, hnames⟩

/-- The last line of a file that does not end with a newline, replaced by a
text that does. -/
def emptyLast : EditOpts where
  base := none
  edits := some [⟨2, 2, ['b'], ['x', '\n']⟩]

/-- **A file that did not end with a newline does after an edit** that leaves an
empty line last. -/
theorem empty_last_line_becomes_newline :
    ¬ EditsNamedLines threeVersions emptyLast ['a', '\n', 'b'] := by
  intro h
  have hadmitted :
      Admitted threeVersions emptyLast ['a', '\n', 'b'] [⟨2, 2, ['b'], ['x', '\n']⟩] := by
    refine ⟨fun base hbase => ?_, rfl, by simp, by decide, List.pairwise_singleton _ _⟩
    cases hbase
  have hrejoins := h.rejoins hadmitted
  revert hrejoins
  unfold Rejoins
  decide

end AgentBlock.Bridge.Fs
