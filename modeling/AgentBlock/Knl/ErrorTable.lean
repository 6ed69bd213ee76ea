/-
AgentBlock/Knl/ErrorTable.lean

A kernel failure as it is raised, and as it is read back.

What is raised is one text of four fields (`attributed`).  It may reach the reader
behind the position it was raised at and in front of a traceback, so the reader
takes the first line that holds the fields (`errorTable`).  A Lua string is bytes:
one that is no UTF-8 has no text, and reading it raises.

Main results:

* `errorTable_attributed` — the method, the class and whether to ask again are read
  back from any failure whose way kept it a text, and of its reason the first line;
* `firstLine_eq_iff` — when that is all of it.
-/
import AgentBlock.Knl.Event
import AgentBlock.Lib.Lines

namespace AgentBlock.Knl

/-! ### Failures -/

/-- The class of a failure. -/
def KnlError.kind : KnlError → String
  | .busy _ => "busy"
  | .storage _ => "storage"
  | .corruption _ => "corruption"
  | .closed _ => "closed"
  | .validation _ => "validation"
  | .unsupported _ => "unsupported"
  | .timeout _ => "timeout"
  | .refused _ => "refused"

/-- The classes a failure can have. -/
def KINDS : List String :=
  ["busy", "storage", "corruption", "closed", "validation", "unsupported", "timeout", "refused"]

def KnlError.isRetryable : KnlError → Bool
  | .busy _ => true
  | _ => false

def kindIsRetryable (kind : String) : Bool := kind = "busy"

def KnlError.reason : KnlError → String
  | .busy reason | .storage reason | .corruption reason | .closed reason | .validation reason
  | .unsupported reason | .timeout reason | .refused reason => reason

/-- What a failure may be attributed to. -/
def METHODS : List String :=
  ["open", "resume", "append", "events", "len", "view", "query", "reserve", "spend", "remaining",
    "exhausted", "close", "api", "error"]

structure Method where
  name : String
  mem : name ∈ METHODS

/-! ### Raising and reading back -/

/-- The attribution, as text. -/
def attributed (method kind reason : String) : String :=
  "knl: " ++ method ++ ": " ++ kind ++ ": " ++ reason

def knlErr (method : Method) (error : KnlError) : String :=
  attributed method.name error.kind error.reason

/-- `split_once`. -/
def splitOnce (sep text : String) : Option (String × String) :=
  (Split.once sep.toList text.toList).map fun p => (String.ofList p.1, String.ofList p.2)

/-- What a failure is read back as; `text` is what `tostring` answers of it. -/
structure ErrorTable where
  kind : Option String
  method : Option String
  retryable : Bool
  message : String
  text : String
  deriving DecidableEq

/-- A text that is no attributed failure. -/
def ErrorTable.unread (text : String) : ErrorTable := ⟨none, none, false, text, text⟩

/-- The fields behind the mark of the first line that has it. -/
def attribution (text : String) : Option String :=
  (Lines.lines text.toList).findSome? fun line =>
    (splitOnce "knl: " (String.ofList line)).map Prod.snd

/-- What a text is read as. -/
def readText (text : String) : ErrorTable :=
  match (attribution text).bind (splitOnce ": ") with
  | none => .unread text
  | some (method, rest) =>
      match splitOnce ": " rest with
      | none => .unread text
      | some (kind, message) =>
          if kind ∈ KINDS then ⟨some kind, some method, kindIsRetryable kind, message, text⟩
          else .unread text

/-- `error_table`, of a string that has this text; it raises where there is none. -/
def errorTable (raised : Option String) : Option ErrorTable := raised.map readText

/-! ### On the way to the reader -/

/-- What stands around a raised text where it is read: a position, and a traceback
where there is one.  A string that is no UTF-8 has no text. -/
structure Way where
  position : Option String
  traceback : Option (Option String)
  unmarked : ∀ text ∈ position, ¬ "knl: ".toList <:+: text.toList

/-- What follows the raised text. -/
def Way.behind (way : Way) : Option String :=
  match way.traceback with
  | none => some ""
  | some traceback => traceback.map ("\n" ++ ·)

/-- What a raised text arrives as. -/
def Way.text (way : Way) (raised : String) : Option String :=
  match way.position, way.behind with
  | some position, some behind => some (position ++ raised ++ behind)
  | _, _ => none

/-- What is around the raised text is text. -/
def Way.IsText (way : Way) : Prop := way.position.isSome ∧ way.behind.isSome

/-- The raised text itself. -/
def Way.direct : Way where
  position := some ""
  traceback := none
  unmarked text htext h := by
    obtain rfl := Option.some.inj htext
    exact List.cons_ne_nil _ _ (List.infix_nil.mp h)

/-! ### What is read back -/

section

variable {way : Way} {m : Method} {e : KnlError}

theorem kind_mem (e : KnlError) : e.kind ∈ KINDS := by
  cases e <;> simp [KnlError.kind, KINDS]

theorem kindIsRetryable_kind (e : KnlError) : kindIsRetryable e.kind = e.isRetryable := by
  cases e <;> simp [KnlError.kind, kindIsRetryable, KnlError.isRetryable]

/-- A word with no colon and no newline. -/
def PlainWord (word : String) : Prop := ':' ∉ word.toList ∧ '\n' ∉ word.toList

instance (word : String) : Decidable (PlainWord word) := inferInstanceAs (Decidable (_ ∧ _))

theorem kind_plain (e : KnlError) : PlainWord e.kind := by
  have hkinds : ∀ kind ∈ KINDS, PlainWord kind := by decide
  exact hkinds e.kind (kind_mem e)

theorem name_plain (m : Method) : PlainWord m.name := by
  have hnames : ∀ name ∈ METHODS, PlainWord name := by decide
  exact hnames m.name m.mem

theorem PlainWord.clear {word : String} (h : PlainWord word) : ¬ ": ".toList <:+: word.toList :=
  fun hin => h.1 (hin.subset List.mem_cons_self)

theorem splitOnce_append {sep : String} {c : Char} {tail : List Char}
    (hsep : sep.toList = c :: tail) (honce : c ∉ tail) {before : String} (rest : String)
    (h : ¬ sep.toList <:+: before.toList) :
    splitOnce sep (before ++ sep ++ rest) = some (before, rest) := by
  rw [splitOnce, String.toList_append, String.toList_append, List.append_assoc,
    Split.once_append hsep honce _ h, Option.map_some, String.ofList_toList, String.ofList_toList]

/-- The mark of an attribution is read once, where it is. -/
theorem attribution_text {position : String} (h : ¬ "knl: ".toList <:+: position.toList)
    (fields behind : String) : attribution (position ++ ("knl: " ++ fields) ++ behind) =
      some (String.ofList (Lines.firstLine (fields ++ behind).toList)) := by
  have hmarked := @Lines.findMarked "knl: ".toList 'k' "nl: ".toList rfl (by decide) (by decide)
    (by decide) (fields ++ behind).toList position.toList h
  have hsplit : ∀ line : List Char, (splitOnce "knl: " (String.ofList line)).map Prod.snd =
      ((Split.once "knl: ".toList line).map Prod.snd).map String.ofList := by
    intro line
    rw [splitOnce, @String.toList_ofList line, Option.map_map, Option.map_map]
    rfl
  have htext : (position ++ ("knl: " ++ fields) ++ behind).toList =
      position.toList ++ ("knl: ".toList ++ (fields ++ behind).toList) := by
    simp only [String.toList_append, List.append_assoc]
  rw [attribution, htext, funext hsplit, ← Option.map_some, ← hmarked, List.map_findSome?]
  rfl

/-- The first line of a text goes on behind the fields it begins with. -/
theorem firstLine_fields {name kind : String} (hname : PlainWord name) (hkind : PlainWord kind)
    (rest : List Char) :
    Lines.firstLine ((name ++ ": " ++ kind ++ ": ").toList ++ rest) =
      (name ++ ": " ++ kind ++ ": ").toList ++ Lines.firstLine rest := by
  have hline : '\n' ∉ (name ++ ": " ++ kind ++ ": ").toList := by
    simp only [String.toList_append, List.mem_append, not_or]
    exact ⟨⟨⟨hname.2, by decide⟩, hkind.2⟩, by decide⟩
  have hend : (name ++ ": " ++ kind ++ ": ").toList.getLast? ≠ some '\r' := by
    rw [String.toList_append, List.getLast?_append_of_ne_nil _ (by decide)]
    decide
  rcases Lines.one_or_more rest with hrest | ⟨line, more, hmore, rfl⟩
  · rw [Lines.firstLine_of_not_mem hrest, Lines.firstLine_of_not_mem fun h =>
      (List.mem_append.mp h).elim hline hrest]
  · rw [← List.append_assoc,
      Lines.firstLine_append fun h => (List.mem_append.mp h).elim hline hmore,
      Lines.firstLine_append hmore, Lines.stripReturn_append hend]

/-- An attributed text, around which there is no other mark before it. -/
theorem readText_attributed {position : String} (h : ¬ "knl: ".toList <:+: position.toList)
    (m : Method) (e : KnlError) (behind : String) :
    readText (position ++ knlErr m e ++ behind) =
      ⟨some e.kind, some m.name, e.isRetryable,
        String.ofList (Lines.firstLine (e.reason ++ behind).toList),
        position ++ knlErr m e ++ behind⟩ := by
  have hfields : knlErr m e = "knl: " ++ (m.name ++ ": " ++ e.kind ++ ": " ++ e.reason) := by
    simp only [knlErr, attributed, String.append_assoc]
  have hline : String.ofList
      (Lines.firstLine (m.name ++ ": " ++ e.kind ++ ": " ++ e.reason ++ behind).toList) =
      m.name ++ ": " ++
        (e.kind ++ ": " ++ String.ofList (Lines.firstLine (e.reason ++ behind).toList)) := by
    rw [@String.append_assoc _ e.reason, String.toList_append, firstLine_fields (name_plain m)
      (kind_plain e), String.ofList_append, String.ofList_toList]
    simp only [String.append_assoc]
  have hread : attribution (position ++ knlErr m e ++ behind) = some (m.name ++ ": " ++
      (e.kind ++ ": " ++ String.ofList (Lines.firstLine (e.reason ++ behind).toList))) := by
    rw [hfields, attribution_text h, hline]
  have hsep : ": ".toList = ':' :: [' '] := rfl
  rw [readText, hread, Option.bind_some, splitOnce_append hsep (by decide) _
    (name_plain m).clear]
  show (match splitOnce ": " _ with
    | none => _
    | some (kind, message) => _) = _
  rw [splitOnce_append hsep (by decide) _ (kind_plain e).clear]
  show (if e.kind ∈ KINDS then _ else _) = _
  rw [if_pos (kind_mem e), kindIsRetryable_kind]

/-- **A failure read back** where it arrived as a text: its method, its class,
whether to ask again, and the first line of its reason. -/
theorem errorTable_attributed {position behind : String} (hposition : way.position = some position)
    (hbehind : way.behind = some behind) (m : Method) (e : KnlError) :
    errorTable (way.text (knlErr m e)) =
      some ⟨some e.kind, some m.name, e.isRetryable,
        String.ofList (Lines.firstLine (e.reason ++ behind).toList),
        position ++ knlErr m e ++ behind⟩ := by
  have hread := readText_attributed (way.unmarked position hposition) m e behind
  simp only [errorTable, Way.text, hposition, hbehind, Option.map_some, hread]

/-- What is no text is not read. -/
theorem errorTable_of_not_isText (h : ¬ way.IsText) (raised : String) :
    errorTable (way.text raised) = none := by
  have hnone : way.text raised = none := by
    rw [Way.text]
    rcases hposition : way.position with - | position
    · rfl
    · rcases hbehind : way.behind with - | behind
      · rfl
      · exact absurd ⟨by rw [hposition]; rfl, by rw [hbehind]; rfl⟩ h
  rw [hnone]
  rfl

theorem Way.IsText.parts (h : way.IsText) :
    ∃ position behind, way.position = some position ∧ way.behind = some behind := by
  obtain ⟨position, hposition⟩ := Option.isSome_iff_exists.mp h.1
  obtain ⟨behind, hbehind⟩ := Option.isSome_iff_exists.mp h.2
  exact ⟨position, behind, hposition, hbehind⟩

/-- A reason of one line, whose last carriage return ends no line either. -/
def OneLine (way : Way) (reason : String) : Prop :=
  '\n' ∉ reason.toList ∧ (way.traceback.isSome → reason.toList.getLast? ≠ some '\r')

/-- The first line of a reason is the reason where it is of one line, and no
traceback takes its last carriage return for an end of line. -/
theorem firstLine_eq_iff {behind : String} (hbehind : way.behind = some behind) :
    Lines.firstLine (e.reason ++ behind).toList = e.reason.toList ↔ OneLine way e.reason := by
  rw [String.toList_append, OneLine]
  rcases Lines.one_or_more e.reason.toList with hone | ⟨line, more, hline, hreason⟩
  · rw [Way.behind] at hbehind
    rcases htrace : way.traceback with - | traceback
    · rw [htrace] at hbehind
      obtain rfl := Option.some.inj hbehind
      simp [hone, Lines.firstLine_of_not_mem]
    · rw [htrace] at hbehind
      obtain ⟨trace, -, rfl⟩ := Option.map_eq_some_iff.mp hbehind
      rw [String.toList_append]
      show Lines.firstLine (e.reason.toList ++ '\n' :: trace.toList) = _ ↔ _
      rw [Lines.firstLine_append hone, Lines.stripReturn_eq_self]
      exact ⟨fun h => ⟨hone, fun _ => h⟩, fun h => h.2 rfl⟩
  · -- a line is no text of two
    rw [hreason, List.append_assoc, List.cons_append, Lines.firstLine_append hline]
    refine iff_of_false (fun h => ?_) (fun h => h.1 (by simp))
    have hlength := (Lines.stripReturn_start line).length_le
    rw [h, List.length_append, List.length_cons] at hlength
    omega

end

end AgentBlock.Knl
