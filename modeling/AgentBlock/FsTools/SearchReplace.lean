/-
AgentBlock/FsTools/SearchReplace.lean

When a call of the search / replace tool does what it says.

It is to replace its texts when each of them is there once and no two touch a
line (`Resolvable`), and to name the others when it does not.  A text that
occurs more than once is taken for one that occurs once where its occurrences
overlap (`Hidden`): the next one is looked for behind the end of the last.

Main results:

* `settled_iff` — what is taken for unique;
* `replacesExactly_iff` — when a call does what it says.
-/
import AgentBlock.FsTools.Exact
import Mathlib.Algebra.BigOperators.Group.List.Basic
import Mathlib.Tactic.IntervalCases
import Mathlib.Tactic.Ring

namespace AgentBlock.FsTools

open Bridge.Fs

variable {versionOf : Text → Text} {content search : Text} {p i : ℕ} {base : Option Text}
  {edits : List Snippet} {e : Snippet} {w w' : World} {answer : Answer}

/-! ### Unique and hidden -/

/-- The text is at one place. -/
def Unique (content search : Text) : Prop :=
  ∃ p, OccursAt content search p ∧ ∀ q, OccursAt content search q → q = p

/-- The text is at more than one place, and each overlaps every other. -/
def Hidden (content search : Text) : Prop :=
  (∃ p q, p ≠ q ∧ OccursAt content search p ∧ OccursAt content search q) ∧
    ∀ p q, OccursAt content search p → OccursAt content search q → q < p + search.length

theorem Hidden.not_unique (h : Hidden content search) : ¬ Unique content search := by
  rintro ⟨p, -, hall⟩
  obtain ⟨⟨q, q', hne, hq, hq'⟩, -⟩ := h
  exact hne ((hall q hq).trans (hall q' hq').symm)

/-- A text is settled when it is unique, or its other places are hidden. -/
theorem settled_iff (hsearch : search ≠ []) :
    (∃ p, Settled content search p) ↔ Unique content search ∨ Hidden content search := by
  have hpos := List.length_pos_iff.mpr hsearch
  constructor
  · rintro ⟨p, hocc, hall⟩
    by_cases hone : ∀ q, OccursAt content search q → q = p
    · exact Or.inl ⟨p, hocc, hone⟩
    · push Not at hone
      obtain ⟨q, hq, hne⟩ := hone
      refine Or.inr ⟨⟨q, p, hne, hq, hocc⟩, fun a b ha hb => ?_⟩
      have := (hall a ha).1
      have := (hall b hb).2
      omega
  · rintro (⟨p, hocc, hone⟩ | ⟨⟨p, q, -, hocc, -⟩, hoverlap⟩)
    · refine ⟨p, hocc, fun q hq => ?_⟩
      rw [hone q hq]
      omega
    · -- the first of them
      have hex : ∃ p, OccursAt content search p := ⟨p, hocc⟩
      classical
      exact ⟨Nat.find hex, Nat.find_spec hex, fun q hq =>
        ⟨Nat.find_min' hex hq, hoverlap _ q (Nat.find_spec hex) hq⟩⟩

theorem Settled.place_eq (hsearch : search ≠ []) (h : Settled content search p) :
    place content search = p := by
  unfold place
  cases hfind : find content search 0 with
  | none => exact absurd h.1 (find_none hsearch hfind (Nat.zero_le p))
  | some q =>
      obtain ⟨-, hocc, hfirst⟩ := find_some hfind
      refine Nat.le_antisymm (Nat.not_lt.mp fun hlt => ?_) (h.2 q hocc).1
      exact hfirst p (Nat.zero_le p) hlt h.1

/-- The edit resolves. -/
def Snippet.Settles (content : Text) (e : Snippet) : Prop := ∃ p, Settled content e.search p

theorem Snippet.Settles.found (h : e.Settles content) : e.Found content := by
  obtain ⟨p, hsettled⟩ := h
  rw [Found, hsettled.place_eq e.some_search]
  exact hsettled.1

theorem resolve_settled (h : e.Settles content) :
    resolve content i e.toEdit = .ok (e.request content) := by
  obtain ⟨p, hsettled⟩ := h
  refine (resolve_ok_iff e.some_search).mpr ⟨p, hsettled, ?_⟩
  rw [Snippet.request, hsettled.place_eq e.some_search]

theorem resolve_unsettled (h : ¬ e.Settles content) :
    ∃ miss, resolve content i e.toEdit = .error miss ∧ miss.editIndex = i := by
  cases hresolve : resolve content i e.toEdit with
  | error miss => exact ⟨miss, rfl, resolve_error hresolve⟩
  | ok request =>
      obtain ⟨p, hsettled, -⟩ := (resolve_ok_iff e.some_search).mp hresolve
      exact absurd ⟨p, hsettled⟩ h

/-! ### All the edits -/

theorem zipIdx_toEdit (edits : List Snippet) :
    (edits.map Snippet.toEdit).zipIdx = edits.zipIdx.map fun r => (r.1.toEdit, r.2) :=
  List.zipIdx_map

/-- The places in the list of the edits that are a `φ`, as the answers count
them. -/
noncomputable def placesOf (φ : Snippet → Prop) (edits : List Snippet) : List ℕ :=
  open scoped Classical in (edits.zipIdx.filter fun r => φ r.1).map fun r => r.2 + 1

theorem mem_placesOf {φ : Snippet → Prop} {k : ℕ} :
    k + 1 ∈ placesOf φ edits ↔ ∃ e, edits[k]? = some e ∧ φ e := by
  classical
  simp only [placesOf, List.mem_map, List.mem_filter, decide_eq_true_eq, Nat.add_right_cancel_iff]
  constructor
  · rintro ⟨⟨e, j⟩, ⟨hmem, hφ⟩, rfl⟩
    exact ⟨e, List.mk_mem_zipIdx_iff_getElem?.mp hmem, hφ⟩
  · rintro ⟨e, hget, hφ⟩
    exact ⟨(e, k), ⟨List.mk_mem_zipIdx_iff_getElem?.mpr hget, hφ⟩, rfl⟩

theorem placesOf_congr {φ ψ : Snippet → Prop} (h : ∀ e ∈ edits, φ e ↔ ψ e) :
    placesOf φ edits = placesOf ψ edits := by
  classical
  unfold placesOf
  congr 1
  apply List.filter_congr
  intro r hr
  exact decide_eq_decide.mpr (h r.1 (List.fst_mem_of_mem_zipIdx hr))

theorem placesOf_eq_nil {φ : Snippet → Prop} (h : ∀ e ∈ edits, ¬ φ e) : placesOf φ edits = [] := by
  classical
  unfold placesOf
  rw [List.map_eq_nil_iff, List.filter_eq_nil_iff]
  intro r hr
  simpa using h r.1 (List.fst_mem_of_mem_zipIdx hr)

/-- A list that has an entry for each edit that is a `φ`, and names it. -/
theorem filterMap_places {β : Type*} {φ : Snippet → Prop} {f : Snippet × ℕ → Option β}
    {index : β → ℕ} (hsome : ∀ r, φ r.1 → ∃ b, f r = some b ∧ index b = r.2 + 1)
    (hnone : ∀ r, ¬ φ r.1 → f r = none) :
    (edits.zipIdx.filterMap f).map index = placesOf φ edits := by
  classical
  unfold placesOf
  generalize edits.zipIdx = rs
  induction rs with
  | nil => rfl
  | cons r rs ih =>
      by_cases hφ : φ r.1
      · obtain ⟨b, hb, hindex⟩ := hsome r hφ
        rw [List.filter_cons_of_pos (by simpa using hφ), List.map_cons,
          List.filterMap_cons_some hb, List.map_cons, ih, hindex]
      · rw [List.filter_cons_of_neg (by simpa using hφ), List.filterMap_cons_none (hnone r hφ), ih]

/-- The misses are those of the edits that do not settle, in order. -/
theorem misses_eq (content : Text) (edits : List Snippet) :
    (resolveAll content (edits.map Snippet.toEdit)).1.map Miss.editIndex =
      placesOf (fun e => ¬ e.Settles content) edits := by
  have hfirst : (resolveAll content (edits.map Snippet.toEdit)).1 =
      edits.zipIdx.filterMap fun r => missOf (resolve content (r.2 + 1) r.1.toEdit) := by
    unfold resolveAll
    dsimp only
    rw [zipIdx_toEdit, List.map_map, List.filterMap_map]
    rfl
  rw [hfirst]
  apply filterMap_places
  · intro r hnot
    obtain ⟨miss, hresolve, hindex⟩ := resolve_unsettled (i := r.2 + 1) hnot
    exact ⟨miss, by rw [hresolve]; rfl, hindex⟩
  · intro r hsettles
    rw [resolve_settled (not_not.mp hsettles)]
    rfl

/-- Where every edit settles, there are no misses and a line edit of each. -/
theorem resolveAll_settled (h : ∀ e ∈ edits, e.Settles content) :
    resolveAll content (edits.map Snippet.toEdit) = ([], edits.map (Snippet.request content)) := by
  have hresolved : ((edits.map Snippet.toEdit).zipIdx.map fun r => resolve content (r.2 + 1) r.1) =
      (edits.map fun e => .ok (e.request content)) := by
    have hfst : edits = edits.zipIdx.map Prod.fst := (List.zipIdx_map_fst 0 edits).symm
    rw [zipIdx_toEdit, List.map_map]
    conv_rhs => rw [hfst, List.map_map]
    apply List.map_congr_left
    intro r hr
    exact resolve_settled (h r.1 (List.fst_mem_of_mem_zipIdx hr))
  unfold resolveAll
  rw [hresolved]
  refine Prod.ext ?_ ?_
  · show List.filterMap _ _ = []
    rw [List.filterMap_map]
    exact List.filterMap_eq_nil_iff.mpr fun e _ => rfl
  · show List.filterMap _ _ = _
    rw [List.filterMap_map]
    exact congrFun List.filterMap_eq_map edits

/-! ### The call -/

/-- Each text is there once, no two touch a line, and the version is the one the
call is based on. -/
structure Resolvable (versionOf : Text → Text) (base : Option Text) (edits : List Snippet)
    (content : Text) : Prop where
  unique : ∀ e ∈ edits, Unique content e.search
  apart : edits.Pairwise (Snippet.Apart content)
  current : Current versionOf ⟨base, none⟩ content

theorem searchReplace_nil :
    searchReplace versionOf w i base ([].map Snippet.toEdit) = some (w, .noEdits) := rfl

/-- A call whose edits do not all settle names those that do not. -/
theorem searchReplace_unsettled (versionOf : Text → Text) (i : ℕ) (base : Option Text)
    (hfile : w.file = some content)
    (h : ∃ e ∈ edits, ¬ e.Settles content) :
    ∃ first failures, searchReplace versionOf w i base (edits.map Snippet.toEdit) =
        some (w, .unresolved first failures) ∧
      failures.map Miss.editIndex = placesOf (fun e => ¬ e.Settles content) edits := by
  obtain ⟨e, he, hnot⟩ := h
  have hne : edits.map Snippet.toEdit ≠ [] := by
    simpa using List.ne_nil_of_mem he
  have hmisses := misses_eq content edits
  cases hresolve : resolveAll content (edits.map Snippet.toEdit) with
  | mk failures translated =>
      rw [hresolve] at hmisses
      cases failures with
      | nil =>
          obtain ⟨k, hk⟩ := List.mem_iff_getElem?.mp he
          have hmem : k + 1 ∈ placesOf (fun e => ¬ e.Settles content) edits :=
            mem_placesOf.mpr ⟨e, hk, hnot⟩
          rw [← hmisses] at hmem
          exact absurd hmem List.not_mem_nil
      | cons first failures =>
          refine ⟨first, first :: failures, ?_, hmisses⟩
          unfold searchReplace
          rw [if_neg hne, hfile]
          dsimp only
          rw [hresolve]

/-- One whose edits all settle is the line edits of them. -/
theorem searchReplace_settled (hfile : w.file = some content) (hne : edits ≠ [])
    (h : ∀ e ∈ edits, e.Settles content) :
    searchReplace versionOf w i base (edits.map Snippet.toEdit) =
      (editAlone versionOf w i ⟨base, some (edits.map (Snippet.request content))⟩).map fun r =>
        (r.1, .edited r.2
          (if r.2.isOk then some (Shape.of (edits.map Snippet.toEdit)) else none)) := by
  unfold searchReplace
  rw [if_neg (by simpa using hne), hfile]
  dsimp only
  rw [resolveAll_settled h]

/-- The line edits are admitted when their texts touch no line in common and
the version is the one they are based on. -/
theorem admitted_requests_iff (versionOf : Text → Text) (base : Option Text) (hne : edits ≠ [])
    (hfound : ∀ e ∈ edits, e.Found content) :
    (∃ requests, Admitted versionOf ⟨base, some (edits.map (Snippet.request content))⟩ content
        requests) ↔
      edits.Pairwise (Snippet.Apart content) ∧ Current versionOf ⟨base, none⟩ content := by
  have hapart : (edits.map (Snippet.request content)).Pairwise EditRequest.Apart ↔
      edits.Pairwise (Snippet.Apart content) := by
    rw [List.pairwise_map]
    apply List.Pairwise.iff_of_mem
    intro e e' he he'
    obtain ⟨s⟩ := (hfound e he).span
    obtain ⟨s'⟩ := (hfound e' he').span
    exact (touches_apart_iff s s' e.some_search e'.some_search (hfound e he) (hfound e' he')).symm
  constructor
  · rintro ⟨requests, h⟩
    obtain rfl := Option.some.inj h.asked
    exact ⟨hapart.mp h.apart, h.current⟩
  · rintro ⟨hpair, hcurrent⟩
    refine ⟨_, hcurrent, rfl, by simpa using hne, ?_, hapart.mpr hpair⟩
    intro request hrequest
    obtain ⟨e, he, rfl⟩ := List.mem_map.mp hrequest
    obtain ⟨s⟩ := (hfound e he).span
    exact lineEditFor_passes e.replace s e.some_search (hfound e he)

/-! ### What is said of the change -/

def Snippet.pair (e : Snippet) : Text × Text := (e.search, e.replace)

theorem shape_eq (edits : List Snippet) :
    Shape.of (edits.map Snippet.toEdit) =
      ⟨netLineDelta (edits.map Snippet.pair), shrank (edits.map Snippet.pair),
        braceShift (edits.map Snippet.pair)⟩ := by
  unfold Shape.of
  dsimp only
  rw [List.map_map]
  rfl

theorem shrank_names (edits : List Snippet) :
    (shrank (edits.map Snippet.pair)).map (fun s => s.1) =
      placesOf (fun e => e.replace.count '\n' < e.search.count '\n') edits := by
  rw [shrank, List.zipIdx_map, List.filterMap_map]
  apply filterMap_places
  · intro r hfewer
    exact ⟨_, if_pos (Nat.succ_lt_succ hfewer), rfl⟩
  · intro r hnot
    exact if_neg fun h => hnot (Nat.lt_of_succ_lt_succ h)

theorem braceShift_names (edits : List Snippet) :
    (braceShift (edits.map Snippet.pair)).map (fun s => s.1) =
      placesOf (fun e => braceBalance e.replace ≠ braceBalance e.search) edits := by
  rw [braceShift, List.zipIdx_map, List.filterMap_map]
  apply filterMap_places
  · intro r hother
    exact ⟨_, if_pos (sub_ne_zero.mpr hother), rfl⟩
  · intro r hsame
    exact if_neg fun h => hsame (sub_ne_zero.mp h)

theorem netLineDelta_eq_sum (edits : List Snippet) :
    netLineDelta (edits.map Snippet.pair) =
      (((edits.map fun e => e.replace.count '\n').sum : ℕ) : ℤ) -
        ((edits.map fun e => e.search.count '\n').sum : ℕ) := by
  induction edits with
  | nil => rfl
  | cons e edits ih =>
      have hcons : netLineDelta ((e :: edits).map Snippet.pair) =
          ((e.replace.count '\n' + 1 : ℕ) : ℤ) - (e.search.count '\n' + 1 : ℕ) +
            netLineDelta (edits.map Snippet.pair) := rfl
      rw [hcons, ih, List.map_cons, List.map_cons, List.sum_cons, List.sum_cons]
      push_cast
      ring

theorem covered_occurrence (h : e.Found content) :
    Patch.covered content (e.occurrence content) = e.search := by
  obtain ⟨after, hafter⟩ := h
  show (content.take (place content e.search + e.search.length)).drop (place content e.search) = _
  rw [List.drop_take, Nat.add_sub_cancel_left, ← hafter, List.take_left]

/-- The change said is the change in newlines. -/
theorem netLineDelta_eq (hfound : ∀ e ∈ edits, e.Found content)
    (hapart : edits.Pairwise (Snippet.Apart content)) :
    netLineDelta (edits.map Snippet.pair) =
      ((exactText content edits).count '\n' : ℤ) - content.count '\n' := by
  obtain ⟨sorted, hperm, hordered⟩ := exists_inOrder hapart
  have hfound' : ∀ e ∈ sorted, e.Found content := fun e he => hfound e (hperm.mem_iff.mp he)
  have hcount := Patch.count_patched (occurrences_fit hfound' (Nat.le_refl _))
    hordered.occurrences '\n'
  rw [List.map_map, List.map_map] at hcount
  have hsearch : (sorted.map ((fun p => (Patch.covered content p).count '\n') ∘
      Snippet.occurrence content)) = sorted.map fun e => e.search.count '\n' := by
    apply List.map_congr_left
    intro e he
    exact congrArg _ (covered_occurrence (hfound' e he))
  have hreplace : (sorted.map ((fun p => p.new.count '\n') ∘ Snippet.occurrence content)) =
      sorted.map fun e => e.replace.count '\n' := rfl
  rw [hsearch, hreplace, (hperm.map _).sum_eq, (hperm.map _).sum_eq] at hcount
  rw [hordered.exactText_eq hfound' hperm, netLineDelta_eq_sum]
  show _ = ((Patch.patched (sorted.map (Snippet.occurrence content)) content).count '\n' : ℤ) - _
  omega

/-! ### What the call says and does -/

section Spec

variable (versionOf)

/-- The call replaces exactly its texts, wherever the file is `content`. -/
structure ReplacesExactly (base : Option Text) (edits : List Snippet) (content : Text) : Prop where
  answers : ∀ w i, w.file = some content → w.calls i = none →
    ∃ w' answer, searchReplace versionOf w i base (edits.map Snippet.toEdit) = some (w', answer)
  /-- It answers ok exactly when each text is there once, no two touch a line
  and the base is absent or current. -/
  ok_iff : ∀ w i w' answer, w.file = some content → w.calls i = none →
    searchReplace versionOf w i base (edits.map Snippet.toEdit) = some (w', answer) →
    (answer.isOk = true ↔ Resolvable versionOf base edits content)
  /-- Then the file is the old one with each text replaced, and the answer says
  how it changed. -/
  replaces : ∀ w i w' answer, w.file = some content → w.calls i = none →
    searchReplace versionOf w i base (edits.map Snippet.toEdit) = some (w', answer) →
    answer.isOk = true →
    ∃ reply shape, answer = .edited reply (some shape) ∧
      w'.file = some (exactText content edits) ∧
      shape.netLineDelta = ((exactText content edits).count '\n' : ℤ) - content.count '\n' ∧
      shape.shrank.map (fun s => s.1) =
        placesOf (fun e => e.replace.count '\n' < e.search.count '\n') edits ∧
      shape.braceShift.map (fun s => s.1) =
        placesOf (fun e => braceBalance e.replace ≠ braceBalance e.search) edits
  /-- Otherwise the file is as it was, and the failures are all the edits that
  do not resolve, in order. -/
  refuses : ∀ w i w' answer, w.file = some content → w.calls i = none →
    searchReplace versionOf w i base (edits.map Snippet.toEdit) = some (w', answer) →
    answer.isOk = false →
    w'.file = w.file ∧ answer.failures.map Miss.editIndex =
      placesOf (fun e => ¬ Unique content e.search) edits

end Spec

/-- What a call comes to when its edits all settle: ok when it is admitted, and
otherwise nothing done. -/
theorem searchReplace_cases (versionOf : Text → Text) (base : Option Text)
    (hfile : w.file = some content) (hfree : w.calls i = none)
    (hne : edits ≠ []) (h : ∀ e ∈ edits, e.Settles content) :
    (edits.Pairwise (Snippet.Apart content) ∧ Current versionOf ⟨base, none⟩ content ∧
      ∃ w' reply, searchReplace versionOf w i base (edits.map Snippet.toEdit) =
          some (w', .edited reply (some (Shape.of (edits.map Snippet.toEdit)))) ∧
        reply.isOk = true ∧
        w'.file = some (joinLines (edited (edits.map (Snippet.request content))
          (splitLines content).1) (splitLines content).2)) ∨
    ¬ (edits.Pairwise (Snippet.Apart content) ∧ Current versionOf ⟨base, none⟩ content) ∧
      ∃ w' reply, searchReplace versionOf w i base (edits.map Snippet.toEdit) =
          some (w', .edited reply none) ∧
        reply.isOk = false ∧ w'.file = w.file := by
  have hfound : ∀ e ∈ edits, e.Found content := fun e he => (h e he).found
  have hadmitted := admitted_requests_iff versionOf base hne hfound
  rw [searchReplace_settled hfile hne h]
  cases hplan : plan versionOf ⟨base, some (edits.map (Snippet.request content))⟩ content with
  | ok planned =>
      obtain ⟨requests, hrequests⟩ := plan_admitted hplan
      obtain ⟨hapart, hcurrent⟩ := hadmitted.mp ⟨requests, hrequests⟩
      obtain rfl := Option.some.inj hrequests.asked
      obtain ⟨w', halone, hnew, -⟩ := editAlone_ok hfile hfree (plan_of_admitted hrequests)
      exact Or.inl ⟨hapart, hcurrent, w', _, by rw [halone]; rfl, rfl, hnew⟩
  | error reply =>
      obtain ⟨w', halone, hsame, -⟩ := editAlone_error hfile hfree hplan
      have hfails := plan_error hplan
      refine Or.inr ⟨fun hboth => ?_, w', reply, ?_, hfails, hsame⟩
      · obtain ⟨requests, hrequests⟩ := hadmitted.mpr hboth
        rw [plan_of_admitted hrequests] at hplan
        cases hplan
      · rw [halone]
        show some (w', Answer.edited reply (if reply.isOk = true then _ else none)) = _
        rw [hfails]
        rfl

/-- An edit that hides another place is not named by what a call answers. -/
theorem ReplacesExactly.not_hidden (h : ReplacesExactly versionOf base edits content) {e : Snippet}
    (he : e ∈ edits) : ¬ Hidden content e.search := by
  intro hhidden
  have hnot : ¬ Unique content e.search := hhidden.not_unique
  have hsettles : e.Settles content := (settled_iff e.some_search).mpr (Or.inr hhidden)
  obtain ⟨k, hk⟩ := List.mem_iff_getElem?.mp he
  have hnamed : k + 1 ∈ placesOf (fun e => ¬ Unique content e.search) edits :=
    mem_placesOf.mpr ⟨e, hk, hnot⟩
  have hne : edits ≠ [] := List.ne_nil_of_mem he
  have hfile : (World.init (some content)).file = some content := rfl
  have hfree : (World.init (some content)).calls 0 = none := rfl
  by_cases hall : ∀ e ∈ edits, e.Settles content
  · rcases searchReplace_cases versionOf base hfile hfree hne hall with
      ⟨-, -, w', reply, hcall, hok, -⟩ | ⟨-, w', reply, hcall, hfails, -⟩
    · have hresolvable := (h.ok_iff _ _ _ _ hfile hfree hcall).mp hok
      exact hnot (hresolvable.unique e he)
    · obtain ⟨-, hnames⟩ := h.refuses _ _ _ _ hfile hfree hcall hfails
      rw [← hnames] at hnamed
      exact absurd hnamed List.not_mem_nil
  · push Not at hall
    obtain ⟨first, failures, hcall, hmisses⟩ :=
      searchReplace_unsettled versionOf 0 base hfile hall
    obtain ⟨-, hnames⟩ := h.refuses _ _ _ _ hfile hfree hcall rfl
    change failures.map Miss.editIndex = _ at hnames
    rw [← hnames, hmisses, mem_placesOf] at hnamed
    obtain ⟨e', hk', hnot'⟩ := hnamed
    rw [hk] at hk'
    exact hnot' (Option.some.inj hk' ▸ hsettles)

/-- What is resolvable is written as it is meant. -/
theorem ReplacesExactly.lands (h : ReplacesExactly versionOf base edits content)
    (hresolvable : Resolvable versionOf base edits content) : Lands (pieces content edits) := by
  have hall : ∀ e ∈ edits, e.Settles content :=
    fun e he => (settled_iff e.some_search).mpr (Or.inl (hresolvable.unique e he))
  have hfound : ∀ e ∈ edits, e.Found content := fun e he => (hall e he).found
  have hfile : (World.init (some content)).file = some content := rfl
  have hfree : (World.init (some content)).calls 0 = none := rfl
  rcases eq_or_ne edits [] with rfl | hne
  · have hok := (h.ok_iff _ _ _ _ hfile hfree searchReplace_nil).mpr hresolvable
    exact Bool.noConfusion hok
  · rcases searchReplace_cases versionOf base hfile hfree hne hall with
      ⟨-, -, w', reply, hcall, hok, hnew⟩ | ⟨hnot, -⟩
    · obtain ⟨_, _, -, hexact, -⟩ := h.replaces _ _ _ _ hfile hfree hcall hok
      rw [hnew] at hexact
      exact (joinLines_eq_exactText_iff hfound hresolvable.apart).mp (Option.some.inj hexact)
    · exact absurd ⟨hresolvable.apart, hresolvable.current⟩ hnot

/-- **A call replaces exactly its texts** exactly when it has some, none of them
hides another place it is at, and the lines written land on what is meant. -/
theorem replacesExactly_iff (versionOf : Text → Text) (base : Option Text) (edits : List Snippet)
    (content : Text) :
    ReplacesExactly versionOf base edits content ↔
      (edits = [] → ¬ Current versionOf ⟨base, none⟩ content) ∧
        (∀ e ∈ edits, ¬ Hidden content e.search) ∧
        (Resolvable versionOf base edits content → Lands (pieces content edits)) := by
  constructor
  · intro h
    refine ⟨?_, fun e he => h.not_hidden he, h.lands⟩
    rintro rfl hcurrent
    have hresolvable : Resolvable versionOf base [] content :=
      ⟨fun e he => absurd he List.not_mem_nil, List.Pairwise.nil, hcurrent⟩
    have hok :=
      (h.ok_iff (World.init (some content)) 0 _ _ rfl rfl searchReplace_nil).mpr hresolvable
    exact Bool.noConfusion hok
  · rintro ⟨hempty, hhidden, hlands⟩
    have hunique : ∀ e ∈ edits, e.Settles content ↔ Unique content e.search := by
      intro e he
      rw [Snippet.Settles, settled_iff e.some_search, or_iff_left (hhidden e he)]
    have hplaces : placesOf (fun e => ¬ e.Settles content) edits =
        placesOf (fun e => ¬ Unique content e.search) edits :=
      placesOf_congr fun e he => not_congr (hunique e he)
    -- the three ways a call can go
    have hcases : ∀ w i, w.file = some content → w.calls i = none →
        ∃ w' answer, searchReplace versionOf w i base (edits.map Snippet.toEdit) =
            some (w', answer) ∧
          (answer.isOk = true ↔ Resolvable versionOf base edits content) ∧
          (answer.isOk = true → ∃ reply, answer = .edited reply
              (some (Shape.of (edits.map Snippet.toEdit))) ∧
            w'.file = some (joinLines (edited (edits.map (Snippet.request content))
              (splitLines content).1) (splitLines content).2)) ∧
          (answer.isOk = false → w'.file = w.file ∧ answer.failures.map Miss.editIndex =
            placesOf (fun e => ¬ Unique content e.search) edits) := by
      intro w i hfile hfree
      rcases eq_or_ne edits [] with rfl | hne
      · refine ⟨w, .noEdits, searchReplace_nil, ?_, fun h => Bool.noConfusion h,
          fun _ => ⟨rfl, rfl⟩⟩
        exact iff_of_false (fun h => Bool.noConfusion h) fun h => hempty rfl h.current
      · by_cases hall : ∀ e ∈ edits, e.Settles content
        · have hnone : placesOf (fun e => ¬ Unique content e.search) edits = [] :=
            placesOf_eq_nil fun e he => not_not.mpr ((hunique e he).mp (hall e he))
          rcases searchReplace_cases versionOf base hfile hfree hne hall
            with ⟨hapart, hcurrent, w', reply, hcall, hok, hnew⟩ |
              ⟨hnot, w', reply, hcall, hfails, hsame⟩
          · refine ⟨w', _, hcall, iff_of_true hok ⟨?_, hapart, hcurrent⟩,
              fun _ => ⟨reply, rfl, hnew⟩, fun h => ?_⟩
            · exact fun e he => (hunique e he).mp (hall e he)
            · exact Bool.noConfusion (h.symm.trans hok)
          · refine ⟨w', _, hcall, iff_of_false ?_ fun h => hnot ⟨h.apart, h.current⟩, fun h => ?_,
              fun _ => ⟨hsame, hnone.symm⟩⟩
            · exact fun h => Bool.noConfusion (hfails.symm.trans h)
            · exact Bool.noConfusion (hfails.symm.trans h)
        · push Not at hall
          obtain ⟨first, failures, hcall, hmisses⟩ :=
            searchReplace_unsettled versionOf i base hfile hall
          obtain ⟨e, he, hnot⟩ := hall
          refine ⟨w, _, hcall, iff_of_false (fun h => Bool.noConfusion h) fun h => ?_,
            fun h => Bool.noConfusion h, fun _ => ⟨rfl, hmisses.trans hplaces⟩⟩
          exact hnot ((hunique e he).mpr (h.unique e he))
    constructor
    case answers =>
      intro w i hfile hfree
      obtain ⟨w', answer, hcall, -⟩ := hcases w i hfile hfree
      exact ⟨w', answer, hcall⟩
    case ok_iff =>
      intro w i w' answer hfile hfree hcall
      obtain ⟨w₂, answer₂, hcall₂, hok, -⟩ := hcases w i hfile hfree
      obtain ⟨rfl, rfl⟩ := Prod.mk.inj (Option.some.inj (hcall₂.symm.trans hcall))
      exact hok
    case replaces =>
      intro w i w' answer hfile hfree hcall hisOk
      obtain ⟨w₂, answer₂, hcall₂, hok, hdone, -⟩ := hcases w i hfile hfree
      obtain ⟨rfl, rfl⟩ := Prod.mk.inj (Option.some.inj (hcall₂.symm.trans hcall))
      obtain ⟨reply, hanswer, hnew⟩ := hdone hisOk
      have hresolvable := hok.mp hisOk
      have hfound : ∀ e ∈ edits, e.Found content :=
        fun e he => ((hunique e he).mpr (hresolvable.unique e he)).found
      refine ⟨reply, _, hanswer, ?_, ?_, ?_, ?_⟩
      · rw [hnew, (joinLines_eq_exactText_iff hfound hresolvable.apart).mpr (hlands hresolvable)]
      · rw [shape_eq]
        exact netLineDelta_eq hfound hresolvable.apart
      · rw [shape_eq]
        exact shrank_names edits
      · rw [shape_eq]
        exact braceShift_names edits
    case refuses =>
      intro w i w' answer hfile hfree hcall hfails
      obtain ⟨w₂, answer₂, hcall₂, -, -, hrefused⟩ := hcases w i hfile hfree
      obtain ⟨rfl, rfl⟩ := Prod.mk.inj (Option.some.inj (hcall₂.symm.trans hcall))
      exact hrefused hfails

/-- The line `b` and its newline, replaced by `x`. -/
def joinsNext : Snippet := ⟨['b', '\n'], ['x'], List.cons_ne_nil _ _⟩

/-- **A search that ends with a newline and a replacement that does not** leave
the newline there. -/
theorem replaced_newline_stays :
    ¬ ReplacesExactly threeVersions none [joinsNext] ['a', '\n', 'b', '\n', 'c'] := by
  intro h
  have hresolvable : Resolvable threeVersions none [joinsNext] ['a', '\n', 'b', '\n', 'c'] := by
    refine ⟨fun e he => ?_, List.pairwise_singleton _ _, fun base hbase => by cases hbase⟩
    obtain rfl := List.mem_singleton.mp he
    refine ⟨2, by decide, fun q hq => ?_⟩
    have hle := hq.le joinsNext.some_search
    have hq' : q ≤ 3 := Nat.le_of_add_le_add_right hle
    interval_cases q <;> first | rfl | exact absurd hq (by decide)
  have hlands := h.lands hresolvable
  revert hlands
  decide

end AgentBlock.FsTools
