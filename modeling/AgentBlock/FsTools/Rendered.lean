/-
AgentBlock/FsTools/Rendered.lean

How long the rendering of a read is.

A result is rendered as a JSON object of its fields, in whatever order and with
whatever characters escaped (`Encodes`); a count grows with the length of what
it is given, in characters or in bytes (`Grows`).  So a result of more lines
costs at least as much, and one that says what cut it at least as much as one
that does not.

Main result: `cost_le` — what makes a result cost more.
-/
import AgentBlock.FsTools.Read
import Mathlib.Algebra.BigOperators.Group.List.Basic
import Mathlib.Algebra.Order.BigOperators.Group.List

namespace AgentBlock.FsTools

open Bridge.Fs

variable {weight : Char → ℕ} {escape : Char → Text} {a b : Text} {r r' : ReadResult}

/-! ### The length of a text -/

/-- The length of a text whose characters have these. -/
def size (weight : Char → ℕ) (t : Text) : ℕ := (t.map weight).sum

@[simp] theorem size_append (a b : Text) :
    size weight (a ++ b) = size weight a + size weight b := by
  rw [size, List.map_append, List.sum_append]
  rfl

theorem size_le_of_prefix (h : a <+: b) : size weight a ≤ size weight b := by
  obtain ⟨rest, rfl⟩ := h
  rw [size_append]
  exact Nat.le_add_right _ _

/-- A count grows with the length of a text, each character of the first 128
being one long. -/
def Grows (count : Text → ℚ) : Prop :=
  ∃ weight : Char → ℕ, (∀ c, c.toNat < 128 → weight c = 1) ∧
    ∀ a b, size weight a ≤ size weight b → count a ≤ count b

theorem size_ascii (hweight : ∀ c, c.toNat < 128 → weight c = 1) {t : Text}
    (h : ∀ c ∈ t, c.toNat < 128) : size weight t = t.length := by
  induction t with
  | nil => rfl
  | cons c t ih =>
      have hcons : size weight (c :: t) = weight c + size weight t := rfl
      rw [hcons, hweight c (h c List.mem_cons_self), ih fun x hx => h x (List.mem_cons_of_mem _ hx),
        List.length_cons, Nat.add_comm]

theorem size_of_all_ascii (hweight : ∀ c, c.toNat < 128 → weight c = 1) {t : Text}
    (h : t.all (fun c => decide (c.toNat < 128)) = true) : size weight t = t.length :=
  size_ascii hweight fun c hc => of_decide_eq_true (List.all_eq_true.mp h c hc)

/-! ### The rendering of a result -/

def quoted (escape : Char → Text) (t : Text) : Text := '"' :: t.flatMap escape ++ ['"']

def numeral (n : ℕ) : Text := Nat.toDigits 10 n

def member (key : String) (value : Text) : Text := '"' :: key.toList ++ ['"', ':'] ++ value

theorem size_member (key : String) (value : Text) :
    size weight (member key value) = size weight (member key []) + size weight value := by
  rw [member, member, List.append_nil, size_append]

/-- What a result says of what cut it: nothing when nothing did. -/
def cutMembers : Option CutBy → List Text
  | none => []
  | some cut =>
      [member "truncated" "true".toList, member "cut_by" ('"' :: cut.text.toList ++ ['"'])]

def members (escape : Char → Text) (r : ReadResult) : List Text :=
  [member "content" (quoted escape r.content), member "version" (quoted escape r.version),
    member "start_line" (numeral r.startLine), member "end_line" (numeral r.endLine),
    member "total" (numeral r.total)] ++ cutMembers r.cutBy

def objectText (ms : List Text) : Text := '\x7b' :: List.intercalate [','] ms ++ ['\x7d']

/-- The encoder writes an object of the fields there are, in some order, and the
characters of a text in some way of its own. -/
def Encodes (encode : ReadResult → Text) : Prop :=
  ∃ escape : Char → Text, ∀ r, ∃ ms, ms.Perm (members escape r) ∧ encode r = objectText ms

/-! ### Its length -/

theorem size_intercalate (hweight : ∀ c, c.toNat < 128 → weight c = 1) {ms : List Text}
    (h : ms ≠ []) :
    size weight (List.intercalate [','] ms) + 1 = (ms.map fun m => size weight m + 1).sum := by
  have hcomma : size weight [','] = 1 := hweight ',' (by decide)
  induction ms with
  | nil => exact absurd rfl h
  | cons m ms ih =>
      cases ms with
      | nil => simp
      | cons m' ms =>
          rw [List.intercalate_cons_cons, size_append, size_append, hcomma, List.map_cons,
            List.sum_cons, ← ih (List.cons_ne_nil _ _)]
          omega

/-- The order of the fields says nothing of the length. -/
theorem size_encode (hweight : ∀ c, c.toNat < 128 → weight c = 1) {ms : List Text}
    (hperm : ms.Perm (members escape r)) :
    size weight (objectText ms) = 1 + ((members escape r).map fun m => size weight m + 1).sum := by
  have hne : ms ≠ [] := by
    rintro rfl
    exact List.cons_ne_nil _ _ hperm.nil_eq.symm
  have hopen : size weight ['\x7b'] = 1 := hweight '\x7b' (by decide)
  have hclose : size weight ['\x7d'] = 1 := hweight '\x7d' (by decide)
  have hinner := size_intercalate hweight hne
  rw [(hperm.map _).sum_eq] at hinner
  show size weight (['\x7b'] ++ List.intercalate [','] ms ++ ['\x7d']) = _
  rw [size_append, size_append, hopen, hclose]
  omega

theorem length_numeral_mono {m n : ℕ} (h : m ≤ n) : (numeral m).length ≤ (numeral n).length := by
  have hpos : 0 < (numeral n).length := Nat.length_toDigits_pos
  rw [numeral, Nat.length_toDigits_le_iff (by decide) hpos]
  exact h.trans_lt ((Nat.length_toDigits_le_iff (by decide) hpos).mp (Nat.le_refl _))

theorem size_numeral (hweight : ∀ c, c.toNat < 128 → weight c = 1) (n : ℕ) :
    size weight (numeral n) = (numeral n).length := by
  apply size_ascii hweight
  intro c hc
  have hdigit := Nat.isDigit_of_mem_toDigits (by decide) (by decide) hc
  simp only [Char.isDigit, Bool.and_eq_true, decide_eq_true_eq] at hdigit
  have hle : c.toNat ≤ 57 := hdigit.2
  omega

/-- What is said of the cut takes more, the longer the name of what cut. -/
def cutLength : Option CutBy → ℕ
  | none => 0
  | some cut => 29 + cut.text.length

theorem size_cutMembers (hweight : ∀ c, c.toNat < 128 → weight c = 1) (cut : Option CutBy) :
    ((cutMembers cut).map fun m => size weight m + 1).sum = cutLength cut := by
  cases cut with
  | none => rfl
  | some cut =>
      have hmember : size weight (member "cut_by" ('"' :: cut.text.toList ++ ['"'])) =
          (member "cut_by" ('"' :: cut.text.toList ++ ['"'])).length := by
        apply size_of_all_ascii hweight
        cases cut <;> decide
      have htruncated : size weight (member "truncated" "true".toList) =
          (member "truncated" "true".toList).length := size_of_all_ascii hweight (by decide)
      show size weight (member "truncated" "true".toList) + 1 +
        (size weight (member "cut_by" ('"' :: cut.text.toList ++ ['"'])) + 1 + 0) = _
      rw [hmember, htruncated]
      cases cut <;> rfl

/-- **What makes a result cost more**: more of the same text, a later last line,
and a longer name of what cut it. -/
theorem cost_le {encode : ReadResult → Text} {count : Text → ℚ} (hencode : Encodes encode)
    (hgrows : Grows count) (hcontent : r.content <+: r'.content) (hversion : r.version = r'.version)
    (hstart : r.startLine = r'.startLine) (htotal : r.total = r'.total)
    (hend : r.endLine ≤ r'.endLine) (hcut : cutLength r.cutBy ≤ cutLength r'.cutBy) :
    count (encode r) ≤ count (encode r') := by
  obtain ⟨escape, hfields⟩ := hencode
  obtain ⟨weight, hweight, hmono⟩ := hgrows
  obtain ⟨ms, hperm, hms⟩ := hfields r
  obtain ⟨ms', hperm', hms'⟩ := hfields r'
  apply hmono
  have hquoted : size weight (member "content" (quoted escape r.content)) ≤
      size weight (member "content" (quoted escape r'.content)) := by
    have hescaped : r.content.flatMap escape <+: r'.content.flatMap escape := by
      obtain ⟨rest, hrest⟩ := hcontent
      rw [← hrest, List.flatMap_append]
      exact List.prefix_append _ _
    have hsize : ∀ t, size weight (quoted escape t) =
        size weight ['"'] + size weight (t.flatMap escape) + size weight ['"'] := by
      intro t
      rw [← size_append, ← size_append]
      rfl
    rw [size_member _ (quoted escape r.content), size_member _ (quoted escape r'.content), hsize,
      hsize]
    have hle : size weight (r.content.flatMap escape) ≤ size weight (r'.content.flatMap escape) :=
      size_le_of_prefix hescaped
    omega
  have hnumeral : size weight (member "end_line" (numeral r.endLine)) ≤
      size weight (member "end_line" (numeral r'.endLine)) := by
    rw [size_member _ (numeral r.endLine), size_member _ (numeral r'.endLine),
      size_numeral hweight, size_numeral hweight]
    have := length_numeral_mono hend
    omega
  rw [hms, hms', size_encode hweight hperm, size_encode hweight hperm', members, members,
    List.map_append, List.map_append, List.sum_append, List.sum_append, size_cutMembers hweight,
    size_cutMembers hweight, hversion, hstart, htotal]
  simp only [List.map_cons, List.map_nil, List.sum_cons, List.sum_nil]
  omega

end AgentBlock.FsTools
