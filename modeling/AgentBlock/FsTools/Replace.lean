/-
AgentBlock/FsTools/Replace.lean

The search / replace tool: texts found in one reading of a file, widened to the
whole lines they touch, and handed to `std.fs.edit` as one batch.

Places in a text are counted from nothing here, lines from one.  The path has
been allowed.
-/
import AgentBlock.Bridge.FsLines
import AgentBlock.Lib.Utf8
import Mathlib.Algebra.Ring.Int.Defs

namespace AgentBlock.FsTools

open Bridge.Fs

/-! ### Finding a text -/

/-- The first place a text is found at, from a place on. -/
def find (content search : Text) (init : ℕ) : Option ℕ :=
  (Split.once search (content.drop init)).map fun p => init + p.1.length

/-- The places it is found at after a match, each after the end of the one
before it.  A match is at least a character long, so that as many turns as the
text has characters are enough. -/
def findRest (content search : Text) : ℕ → ℕ → List ℕ
  | 0, _ => []
  | turns + 1, init =>
      match find content search init with
      | none => []
      | some p => p :: findRest content search turns (p + search.length)

/-- Where the line begins that a text leaves off on. -/
def lineStart (before : Text) : ℕ :=
  match Split.last '\n' before with
  | some (above, _) => above.length + 1
  | none => 0

def lineOf (content : Text) (p : ℕ) : ℕ := (content.take p).count '\n' + 1

/-! ### A text that is not there -/

/-- The lines of a text, without an empty one after its last newline. -/
def searchLines (search : Text) : List Text :=
  let lines := search.splitOn '\n'
  if lines.getLast? = some [] then lines.dropLast else lines

/-- Halve the count of lines that may still be found: `lo` are, more than `hi`
are not. -/
def longestFound (found : ℕ → Bool) (lo hi : ℕ) : ℕ :=
  if lo < hi then
    let mid := lo + (hi - lo + 1) / 2
    if found mid then longestFound found mid hi else longestFound found lo (mid - 1)
  else lo
termination_by hi - lo

/-- Where the file stops saying what the search does: how many of its lines are
there, and what the file has in their place. -/
def divergesAt (content search : Text) : Option (ℕ × Text) :=
  let lines := searchLines search
  let prefixPos := fun n => find content (List.intercalate ['\n'] (lines.take n)) 0
  if lines = [] ∨ prefixPos 1 = none then none
  else
    let lo := longestFound (fun n => (prefixPos n).isSome) 1 lines.length
    let start := (prefixPos lo).getD 0
    let out := ((content.drop (lineStart (content.take start))).splitOn '\n').take lines.length
    some (lo, List.intercalate ['\n'] out)

/-- The words of a line: runs of letters, digits and underscores. -/
def tokens (line : Text) : List Text :=
  (line.splitOnP fun c => !(c.isAlphanum || c == '_')).filter fun word => word ≠ []

def prefixLen : Bytes → Bytes → ℕ
  | a :: as, b :: bs => if a = b then prefixLen as bs + 1 else 0
  | _, _ => 0

structure Nearest where
  line : ℕ
  text : Text
  sharedWords : ℕ
  deriving DecidableEq

def isSpace (c : Char) : Bool := c ∈ [' ', '\t', '\n', '\x0b', '\x0c', '\r']

local instance lawful_words : LawfulBEq Text := inferInstance

/-- The line that shares the most words with the first one searched for, the
longer common beginning deciding between two. -/
def nearestLine (content search : Text) : Option Nearest :=
  let first := search.takeWhile (· ≠ '\n')
  let want := ((tokens first).filter fun word => word.length ≥ 3).dedup
  if want = [] then none
  else
    let trimmedFirst := Split.trim isSpace first
    let scored := (content.splitOn '\n').zipIdx.map fun r =>
      let score := (want.filter fun word => word ∈ tokens r.1).length
      let common := prefixLen (Utf8.encode trimmedFirst) (Utf8.encode (Split.trim isSpace r.1))
      (r.2 + 1, score, common, r.1)
    let best := scored.foldl (fun best r =>
      if r.2.1 < 2 then best
      else match best with
        | some b => if r.2.1 > b.2.1 ∨ (r.2.1 = b.2.1 ∧ r.2.2.1 > b.2.2.1) then some r else best
        | none => some r) none
    best.map fun b => ⟨b.1, b.2.2.2, b.2.1⟩

/-! ### One edit -/

/-- One edit as the model sent it: a search and a replace are there when they
are texts. -/
structure SnippetEdit where
  search : Option Text
  replace : Option Text
  deriving DecidableEq

inductive MissReason where
  | badEdit
  | searchNotFound (divergesAt : Option (ℕ × Text)) (nearest : Option Nearest)
  | searchAmbiguous (found : ℕ) (atLines : List ℕ)
  deriving DecidableEq

/-- An edit that did not resolve. -/
structure Miss where
  reason : MissReason
  editIndex : ℕ
  deriving DecidableEq

/-- The edit of whole lines that replaces the text found at `pos`. -/
def lineEditFor (content : Text) (pos : ℕ) (search replace : Text) : EditRequest :=
  let endPos := pos + search.length - 1
  let replace :=
    -- both end their line, and the line edit writes that newline itself
    if search.getLast? = some '\n' ∧ replace.getLast? = some '\n' then replace.dropLast
    else replace
  let spanStart := lineStart (content.take pos)
  let spanEnd := (find content ['\n'] endPos).getD content.length
  let expect := (content.take spanEnd).drop spanStart
  let lead := (content.take pos).drop spanStart
  let rest := (content.take spanEnd).drop (endPos + 1)
  let startLine := 1 + (content.take spanStart).count '\n'
  { startLine
    endLine := startLine + expect.count '\n'
    expect
    replace := lead ++ replace ++ rest }

/-- Resolve one edit against the text, or say why it cannot be. -/
def resolve (content : Text) (i : ℕ) (e : SnippetEdit) : Except Miss EditRequest :=
  match e.search, e.replace with
  | some search, some replace =>
      if search = [] then .error ⟨.badEdit, i⟩
      else
        match find content search 0 with
        | none =>
            -- what to tell the model: where the text first differs, or else the nearest line
            let diverges := divergesAt content search
            let nearest := if diverges = none then nearestLine content search else none
            .error ⟨.searchNotFound diverges nearest, i⟩
        | some pos =>
            match findRest content search content.length (pos + search.length) with
            | [] => .ok (lineEditFor content pos search replace)
            | others =>
                let places := pos :: others
                .error ⟨.searchAmbiguous places.length ((places.take 10).map (lineOf content)), i⟩
  | _, _ => .error ⟨.badEdit, i⟩

/-! ### What is said of the change -/

def linesOf (t : Text) : ℕ := t.count '\n' + 1

/-- Opening braces less closing ones. -/
def braceBalance (t : Text) : ℤ := (t.count '\x7b' : ℤ) - t.count '\x7d'

def netLineDelta (edits : List (Text × Text)) : ℤ :=
  (edits.map fun e => (linesOf e.2 : ℤ) - linesOf e.1).sum

/-- The edits whose replacement has fewer lines, with both counts. -/
def shrank (edits : List (Text × Text)) : List (ℕ × ℕ × ℕ) :=
  edits.zipIdx.filterMap fun r =>
    if linesOf r.1.2 < linesOf r.1.1 then some (r.2 + 1, linesOf r.1.1, linesOf r.1.2) else none

/-- The edits whose replacement has another balance of braces, with how far off
it is. -/
def braceShift (edits : List (Text × Text)) : List (ℕ × ℤ) :=
  edits.zipIdx.filterMap fun r =>
    let shift := braceBalance r.1.2 - braceBalance r.1.1
    if shift ≠ 0 then some (r.2 + 1, shift) else none

def shrankText (shrank : List (ℕ × ℕ × ℕ)) : String :=
  String.intercalate "; " (shrank.map fun s =>
    "edit " ++ toString s.1 ++ ": " ++ toString s.2.1 ++ "->" ++ toString s.2.2 ++ " lines")

def signed (n : ℤ) : String := (if n < 0 then "" else "+") ++ toString n

def braceText (braces : List (ℕ × ℤ)) : String :=
  String.intercalate "; " (braces.map fun b => "edit " ++ toString b.1 ++ ": " ++ signed b.2)

def shrankNote (text : String) : String :=
  "Some replacements are shorter than the text they replaced (" ++ text ++
    "). If that was not intended, the lines you left out of `replace` are now gone " ++
    "— re-read the region and put them back."

def braceNote (text : String) : String :=
  "Some replacements change the count of `\x7b` minus `\x7d` against the text they " ++
    "replaced (" ++ text ++
    "). If the edit was meant to add code after a block, the block's closing brace " ++
    "belongs inside `search` — as it stands, the text that followed your search is " ++
    "now on the other side of a brace. Re-read the region if that was not intended."

/-- What a call that was done says of the change beside the editor's answer. -/
structure Shape where
  netLineDelta : ℤ
  shrank : List (ℕ × ℕ × ℕ)
  braceShift : List (ℕ × ℤ)

def Shape.shrankField (s : Shape) : Option String :=
  if s.shrank = [] then none else some (shrankText s.shrank)

def Shape.braceShiftField (s : Shape) : Option String :=
  if s.braceShift = [] then none else some (braceText s.braceShift)

def Shape.note (s : Shape) : Option String :=
  let notes := (s.shrankField.map shrankNote).toList ++ (s.braceShiftField.map braceNote).toList
  if notes = [] then none else some (String.intercalate " " notes)

/-! ### The call -/

inductive Answer where
  | noEdits
  | unresolved (first : Miss) (failures : List Miss)
  | edited (reply : Reply) (shape : Option Shape)
  | raised

def Answer.isOk : Answer → Bool
  | edited reply _ => reply.isOk
  | _ => false

/-- The edits that did not resolve, as the answer lists them. -/
def Answer.failures : Answer → List Miss
  | unresolved _ failures => failures
  | _ => []

def missOf : Except Miss EditRequest → Option Miss
  | .error miss => some miss
  | .ok _ => none

def requestOf : Except Miss EditRequest → Option EditRequest
  | .ok request => some request
  | .error _ => none

/-- The misses and the line edits of a list of edits. -/
def resolveAll (content : Text) (edits : List SnippetEdit) : List Miss × List EditRequest :=
  let resolved := edits.zipIdx.map fun r => resolve content (r.2 + 1) r.1
  (resolved.filterMap missOf, resolved.filterMap requestOf)

def Shape.of (edits : List SnippetEdit) : Shape :=
  let pairs := edits.map fun e => (e.search.getD [], e.replace.getD [])
  ⟨FsTools.netLineDelta pairs, FsTools.shrank pairs, FsTools.braceShift pairs⟩

/-- A call of the tool that no other call comes between. -/
def searchReplace (versionOf : Text → Text) (w : World) (i : ℕ) (base : Option Text)
    (edits : List SnippetEdit) : Option (World × Answer) :=
  if edits = [] then some (w, .noEdits)
  else
    match w.file with
    | none => some (w, .raised)
    | some content =>
        let (failures, translated) := resolveAll content edits
        match failures with
        | first :: _ => some (w, .unresolved first failures)
        | [] =>
            -- the edits of the lines go through `fs.edit`, which reads the file once more
            (editAlone versionOf w i ⟨base, some translated⟩).map fun r =>
              (r.1, .edited r.2 (if r.2.isOk then some (Shape.of edits) else none))

end AgentBlock.FsTools
