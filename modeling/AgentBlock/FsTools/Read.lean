/-
AgentBlock/FsTools/Read.lean

The read tool: a range of the lines of a file, cut by a limit of lines and by a
budget of tokens, and what it is measured by.

The path has been allowed, and a line a call asks for is a whole number.  A
budget and a count are exact rationals.  The encoder of a result (`encode`) is a
parameter.
-/
import AgentBlock.Bridge.Fs
import AgentBlock.Lib.Bisect
import Mathlib.Data.Rat.Floor

namespace AgentBlock.FsTools

open Bridge.Fs

/-- What cut a result. -/
inductive CutBy where
  | limit
  | budget
  | maxTokens
  deriving DecidableEq

def CutBy.text : CutBy → String
  | limit => "limit"
  | budget => "budget"
  | maxTokens => "max_tokens"

/-- A result; it is marked as truncated when something cut it, and only then. -/
structure ReadResult where
  content : Text
  version : Text
  startLine : ℕ
  endLine : ℕ
  total : ℕ
  cutBy : Option CutBy
  deriving DecidableEq

def ReadResult.truncated (r : ReadResult) : Bool := r.cutBy.isSome

/-- What a call asks for; a field is not there when it is no number. -/
structure ReadInput where
  startLine : Option ℤ
  endLine : Option ℤ
  limit : Option ℚ
  maxTokens : Option ℚ

/-- What a result may cost and how that is counted: a share of the window needs
a count to measure it by. -/
structure Ctx where
  budgetTokens : Option ℚ
  budgetCount : Option (Text → ℚ)
  counted : budgetTokens.isSome = true → budgetCount.isSome = true

inductive ReadAnswer where
  | page (r : ReadResult)
  | rangeInvalid (total : ℕ) (error : String)
  | resultTooLarge (line : ℕ) (budget : ℤ) (total : ℕ) (error : String)
  | raised
  deriving DecidableEq

/-- A field of a call as it is named in a text. -/
def fieldText (n : Option ℤ) : String := (n.map toString).getD "nil"

def emptyError (start : Option ℤ) : String :=
  "start_line=" ++ fieldText start ++ " is not inside an empty file."

def rangeError (start stop : Option ℤ) (total : ℕ) : String :=
  "start_line=" ++ fieldText start ++ " end_line=" ++ fieldText stop ++
    " is not a range inside a " ++ toString total ++ "-line file."

def tooLargeError (line : ℕ) (budget : ℤ) : String :=
  "Line " ++ toString line ++ " alone is over the " ++ toString budget ++
    "-token budget one result may take. Nothing can be returned from here."

/-- What `%d` writes: a fraction, or more than an integer holds, raises. -/
def asInteger (n : ℚ) : Option ℤ :=
  if n.isInt ∧ -2 ^ 63 ≤ n.num ∧ n.num < 2 ^ 63 then some n.num else none

/-- The lines of a text from `first` to `last`, as the pattern reads them. -/
def rangeOf (content : Text) (first last : ℕ) : List Text :=
  ((content.splitOn '\n').zipIdx.filter fun r => first ≤ r.2 + 1 ∧ r.2 + 1 ≤ last).map Prod.fst

/-- How many lines at most, where a limit is one. -/
def limitOf (input : ReadInput) : Option ℕ :=
  (input.limit.map Rat.floor).bind fun limit => if limit ≥ 1 then some limit.toNat else none

/-- The lines a limit leaves, and whether it cut any. -/
def limited (limit : Option ℕ) (out : List Text) : List Text × Option CutBy :=
  match limit with
  | some limit => if out.length > limit then (out.take limit, some .limit) else (out, none)
  | none => (out, none)

/-- The most lines that cost at most `budget`; none when not even the first
does. -/
def fitLines (lines : ℕ) (budget : ℚ) (cost : ℕ → ℚ) : ℕ :=
  if lines = 0 ∨ cost lines ≤ budget then lines
  else
    match bisect (ε := Empty) Except.ok (fun k => cost k ≤ budget) 1 (lines + 1) none with
    | .ok (some k) => k
    | .ok none => 0

/-- The result of the first `k` lines of `out`. -/
def resultOf (out : List Text) (version : Text) (first total k : ℕ) (cutBy : Option CutBy) :
    ReadResult where
  content := List.intercalate ['\n'] (out.take k)
  version
  startLine := first
  endLine := if k > 0 then first + k - 1 else first - 1
  total
  cutBy

/-- The budget of a call, the smaller of its own and the share of the window,
and which of them that is. -/
def budgetOf (ctx : Ctx) (input : ReadInput) : Option (ℚ × CutBy) :=
  let share := ctx.budgetTokens.map fun budget => (budget, CutBy.budget)
  match input.maxTokens, ctx.budgetCount with
  | some want, some _ =>
      if share.all fun budget => want < budget.1 then some (want, .maxTokens) else share
  | _, _ => share

variable (versionOf : Text → Text) (encode : ReadResult → Text)

/-- The handler, on what it read. -/
def read (ctx : Ctx) (input : ReadInput) (content : Text) : ReadAnswer :=
  let version := versionOf content
  let total := (splitLines content).1.length
  let first := input.startLine.getD 1
  let last := input.endLine.getD total
  if content = [] then
    if input.startLine ≠ none ∧ first > 1 then .rangeInvalid 0 (emptyError input.startLine)
    else .page ⟨[], version, 1, 0, 0, none⟩
  else if first < 1 ∨ last < first ∨ first > total then
    .rangeInvalid total (rangeError input.startLine input.endLine total)
  else
    let first := first.toNat
    let last := min last.toNat total
    let (out, cutBy) := limited (limitOf input) (rangeOf content first last)
    match budgetOf ctx input, ctx.budgetCount with
    | some (budget, budgetFrom), some count =>
        -- measured as a result that the budget cut
        let kept := fitLines out.length budget fun k =>
          count (encode (resultOf out version first total k (some budgetFrom)))
        if kept < out.length then
          if kept = 0 then
            match asInteger budget with
            | some whole => .resultTooLarge first whole total (tooLargeError first whole)
            | none => .raised
          else .page (resultOf out version first total kept (some budgetFrom))
        else .page (resultOf out version first total out.length cutBy)
    | some _, none => .raised
    | none, _ => .page (resultOf out version first total out.length cutBy)

end AgentBlock.FsTools
