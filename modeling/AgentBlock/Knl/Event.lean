/-
AgentBlock/Knl/Event.lean

The event envelope, the kernel's own kinds, and the check an event passes
before it is recorded.

An event on its way to the log is a JSON object with the keys a caller wrote.
Once recorded it is a `Current`: its kind, the coordinates the store gave it,
and `meta` and `data` filled in where the caller wrote none.

Main results:

* `isReserved_eq_isKernelOnly` — the kinds whose `data` the kernel checks are
  the kinds only the kernel writes;
* `validateEvent_error` — a refused event is refused as a bad argument;
* `validateEvent_kernelEvent` — what the kernel builds is checked by its
  required fields alone.
-/
import AgentBlock.Lib.I64
import AgentBlock.Lib.Json

namespace AgentBlock.Knl

/-! ### Errors -/

/-- What a kernel call fails with: a class, and the reason it gives. -/
inductive KnlError where
  | busy (reason : String)
  | storage (reason : String)
  | corruption (reason : String)
  | closed (reason : String)
  | validation (reason : String)
  | unsupported (reason : String)
  | timeout (reason : String)
  | refused (reason : String)
  deriving DecidableEq

/-- The classes a store fails with when it could not do the work. -/
def KnlError.isFault : KnlError → Bool
  | .busy _ | .storage _ | .corruption _ | .unsupported _ | .timeout _ => true
  | .closed _ | .validation _ | .refused _ => false

/-- The caller's argument was wrong. -/
def KnlError.isValidation : KnlError → Bool
  | .validation _ => true
  | _ => false

theorem KnlError.eq_validation {e : KnlError} (h : e.isValidation = true) :
    ∃ why, e = .validation why := by
  cases e <;> first | exact ⟨_, rfl⟩ | cases h

/-- The session is over. -/
def KnlError.isClosed : KnlError → Bool
  | .closed _ => true
  | _ => false

/-! ### Envelope keys, kinds and fields -/

@[simp] abbrev FIELD_SEQ : String := "seq"
@[simp] abbrev FIELD_EPOCH_MS : String := "epoch_ms"
@[simp] abbrev FIELD_KIND : String := "kind"
@[simp] abbrev FIELD_BEAT : String := "beat"
@[simp] abbrev FIELD_META : String := "meta"
@[simp] abbrev FIELD_DATA : String := "data"
@[simp] abbrev SCHEMA_VERSION_FIELD : String := "_schema_version"

/-- Every key an event may carry at the top level. -/
def ENVELOPE_FIELDS : List String :=
  [FIELD_KIND, FIELD_META, FIELD_DATA, FIELD_SEQ, FIELD_EPOCH_MS, SCHEMA_VERSION_FIELD]

@[simp] abbrev KIND_SESSION_OPENED : String := "session_opened"
@[simp] abbrev KIND_SESSION_CLOSED : String := "session_closed"
@[simp] abbrev KIND_BUDGET_GRANTED : String := "budget_granted"
@[simp] abbrev KIND_BUDGET_RESERVED : String := "budget_reserved"
@[simp] abbrev KIND_BUDGET_REFUSED : String := "budget_refused"
@[simp] abbrev KIND_BUDGET_SPENT : String := "budget_spent"

/-- The four kinds the ledger is made of. -/
def BUDGET_KINDS : List String :=
  [KIND_BUDGET_GRANTED, KIND_BUDGET_RESERVED, KIND_BUDGET_REFUSED, KIND_BUDGET_SPENT]

@[simp] abbrev FIELD_REASON : String := "reason"
@[simp] abbrev FIELD_DETAIL : String := "detail"
@[simp] abbrev FIELD_AMOUNT : String := "amount"
@[simp] abbrev FIELD_TAG : String := "tag"
@[simp] abbrev FIELD_DESC : String := "desc"
@[simp] abbrev FIELD_REMAINING : String := "remaining"
@[simp] abbrev FIELD_OWNER : String := "owner"
@[simp] abbrev FIELD_SCOPE_ID : String := "scope_id"
@[simp] abbrev FIELD_PARENT : String := "parent"
@[simp] abbrev FIELD_CHILD : String := "child"
@[simp] abbrev FIELD_OPEN_CHILDREN : String := "open_children"

/-! ### Required data of the kernel's kinds -/

/-- The JSON shape of a required `data` field. -/
inductive Shape where
  | str
  | integer
  deriving DecidableEq

def Shape.name : Shape → String
  | .str => "a string"
  | .integer => "a whole number"

/-- A number without a fractional part. -/
def isWholeNumber : Json → Bool
  | .num (.int _) => true
  | .num (.float q) => q.den = 1
  | .num .negZero => true
  | _ => false

def Shape.accepts : Shape → Json → Bool
  | .str, v => v.asStr.isSome
  | .integer, v => isWholeNumber v

def SESSION_OPENED_DATA : List (String × Shape) :=
  [(FIELD_SCOPE_ID, .str), (FIELD_OWNER, .str)]
def SESSION_CLOSED_DATA : List (String × Shape) := [(FIELD_REASON, .str)]
def BUDGET_GRANTED_DATA : List (String × Shape) := [(FIELD_AMOUNT, .integer)]
def BUDGET_MOVE_DATA : List (String × Shape) := [(FIELD_AMOUNT, .integer)]
def BUDGET_REFUSED_DATA : List (String × Shape) :=
  [(FIELD_AMOUNT, .integer), (FIELD_REMAINING, .integer)]

/-- The required `data` of a kernel kind, nothing for every other kind. -/
def requiredData (kind : String) : Option (List (String × Shape)) :=
  if kind = KIND_SESSION_OPENED then some SESSION_OPENED_DATA
  else if kind = KIND_SESSION_CLOSED then some SESSION_CLOSED_DATA
  else if kind = KIND_BUDGET_GRANTED then some BUDGET_GRANTED_DATA
  else if kind = KIND_BUDGET_RESERVED ∨ kind = KIND_BUDGET_SPENT then some BUDGET_MOVE_DATA
  else if kind = KIND_BUDGET_REFUSED then some BUDGET_REFUSED_DATA
  else none

/-- Whether the kernel checks this kind's `data`. -/
def isReserved (kind : String) : Bool := (requiredData kind).isSome

/-- Whether `kind` is one only the kernel may write. -/
def isKernelOnly (kind : String) : Bool :=
  kind = KIND_SESSION_OPENED ∨ kind = KIND_SESSION_CLOSED ∨ kind = KIND_BUDGET_GRANTED ∨
    kind = KIND_BUDGET_RESERVED ∨ kind = KIND_BUDGET_REFUSED ∨ kind = KIND_BUDGET_SPENT

/-- **The kinds the kernel checks are the kinds it writes.** -/
theorem isReserved_eq_isKernelOnly (kind : String) :
    isReserved kind = isKernelOnly kind := by
  unfold isReserved requiredData isKernelOnly
  repeat' split
  all_goals simp_all
  grind

/-! ### Validation -/

/-- A value's type, as the error messages name it. -/
def jsonTypeName : Json → String
  | .null => "nil"
  | .bool _ => "boolean"
  | .num _ => "number"
  | .str _ => "string"
  | .arr _ => "array"
  | .obj _ => "table"

/-- A character inside the quotes of a shown text: the quote, the backslash
and the control characters with a name of their own are escaped (characters
shown by their code point are left as they are). -/
def escaped (c : Char) : String :=
  match c.toNat with
  | 0 => "\\0"
  | 9 => "\\t"
  | 10 => "\\n"
  | 13 => "\\r"
  | 34 => "\\\""
  | 92 => "\\\\"
  | _ => c.toString

/-- A text as the messages show it. -/
def quoted (s : String) : String := "\"" ++ String.join (s.toList.map escaped) ++ "\""

/-- The top-level keys are a closed set; the first other one is refused. -/
def checkEnvelope : Obj → Except KnlError Unit
  | [] => .ok ()
  | (key, _) :: rest =>
      if key ∈ ENVELOPE_FIELDS then checkEnvelope rest
      else
        let goes :=
          if key = FIELD_BEAT then
            "the beat is a correlation key, so it goes under meta.beat"
          else "a kind's own fields go under data"
        .error (.validation (quoted key ++
          " is not part of the envelope (kind / meta / data); " ++ goes))

/-- A value a label may have. -/
def isScalar : Json → Bool
  | .str _ | .num _ | .bool _ => true
  | _ => false

/-- `meta` is an object of scalars. -/
def checkLabels : Obj → Except KnlError Unit
  | [] => .ok ()
  | (name, v) :: rest =>
      if isScalar v then checkLabels rest
      else .error (.validation ("meta is shallow: " ++ quoted name ++
        " must be a string, a number or a boolean, got " ++ jsonTypeName v ++
        " (nest it under data)"))

def checkMeta : Option Json → Except KnlError Unit
  | none => .ok ()
  | some (.obj labels) => checkLabels labels
  | some other => .error (.validation ("meta must be a table, got " ++ jsonTypeName other))

/-- `data` is an object when there is one; an absent one is empty. -/
def checkData : Option Json → Except KnlError Obj
  | none => .ok []
  | some (.obj data) => .ok data
  | some other => .error (.validation ("data must be a table, got " ++ jsonTypeName other))

/-- The required fields of a kernel kind are there, in the shape it wants. -/
def checkRequired (kind : String) (data : Obj) :
    List (String × Shape) → Except KnlError Unit
  | [] => .ok ()
  | (name, shape) :: rest =>
      match data.get? name with
      | none => .error (.validation ("kernel kind " ++ quoted kind ++ " requires data." ++
          name ++ " (" ++ shape.name ++ ")"))
      | some v =>
          if shape.accepts v then checkRequired kind data rest
          else .error (.validation ("kernel kind " ++ quoted kind ++ ": data." ++ name ++
            " must be " ++ shape.name ++ ", got " ++ jsonTypeName v))

/-- The kind of an event that was not checked yet. -/
def checkKind : Option Json → Except KnlError String
  | some (.str kind) => .ok kind
  | some other => .error (.validation ("kind must be a string, got " ++ jsonTypeName other))
  | none => .error (.validation "kind is required (string)")

/-- Validate an event before it enters the history. -/
def validateEvent (event : Obj) : Except KnlError Unit := do
  let kind ← checkKind (event.get? FIELD_KIND)
  checkEnvelope event
  checkMeta (event.get? FIELD_META)
  let data ← checkData (event.get? FIELD_DATA)
  match requiredData kind with
  | none => .ok ()
  | some fields => checkRequired kind data fields

/-! ### Recorded events -/

/-- A recorded event at the current shape. -/
structure Current where
  kind : String
  seq : Nat
  epochMs : Nat
  schemaVersion : Nat
  labels : Obj
  data : Obj

/-- The version of the shape the kernel writes. -/
def CURRENT_SCHEMA_VERSION : Nat := 2

/-- A field of an event's `data`. -/
def dataField (event : Current) (name : String) : Option Json := event.data.get? name

/-- The object under a key of an event that was not recorded yet, empty where
the caller wrote none. -/
def objectField (event : Obj) (name : String) : Obj :=
  ((event.get? name).bind Json.asObject).getD []

/-- The kind of an event that was not recorded yet, empty where it has none. -/
def kindOf (event : Obj) : String := ((event.get? FIELD_KIND).bind Json.asStr).getD ""

/-- Stamp an event: the store's coordinates replace whatever the caller wrote
there, and `meta` and `data` are filled in. -/
def stamp (event : Obj) (seq epochMs : Nat) : Current where
  kind := kindOf event
  seq := seq
  epochMs := epochMs
  schemaVersion := CURRENT_SCHEMA_VERSION
  labels := objectField event FIELD_META
  data := objectField event FIELD_DATA

/-- A kernel-written event: its kind, and the `data` it records. -/
def kernelEvent (kind : String) (data : Obj) : Obj :=
  (Obj.insert [] FIELD_KIND (.str kind)).insert FIELD_DATA (.obj data)

theorem kernelEvent_eq (kind : String) (data : Obj) :
    kernelEvent kind data = [(FIELD_DATA, .obj data), (FIELD_KIND, .str kind)] := rfl

/-- Put the caller's labels on a kernel-written event. -/
def withMeta (event : Obj) : Option Obj → Obj
  | none => event
  | some labels => if labels.isEmpty then event else event.insert FIELD_META (.obj labels)

section Stamp

variable (event : Obj) (kind : String) (data : Obj) (labels : Option Obj) (seq epochMs : Nat)

@[simp] theorem stamp_kind : (stamp event seq epochMs).kind = kindOf event := rfl

@[simp] theorem stamp_seq : (stamp event seq epochMs).seq = seq := rfl

@[simp] theorem stamp_epochMs : (stamp event seq epochMs).epochMs = epochMs := rfl

@[simp] theorem stamp_data :
    (stamp event seq epochMs).data = objectField event FIELD_DATA := rfl

@[simp] theorem kindOf_kernelEvent : kindOf (kernelEvent kind data) = kind := by
  simp [kindOf, kernelEvent]

@[simp] theorem objectField_kernelEvent :
    objectField (kernelEvent kind data) FIELD_DATA = data := by
  simp [objectField, kernelEvent]

@[simp] theorem kindOf_withMeta : kindOf (withMeta event labels) = kindOf event := by
  unfold withMeta kindOf
  split
  · rfl
  · split <;> simp

@[simp] theorem objectField_withMeta :
    objectField (withMeta event labels) FIELD_DATA = objectField event FIELD_DATA := by
  unfold withMeta objectField
  split
  · rfl
  · split <;> simp

end Stamp

/-! ### What passes -/

theorem checkEnvelope_error {event : Obj} {e : KnlError}
    (h : checkEnvelope event = .error e) : e.isValidation = true := by
  induction event with
  | nil => cases h
  | cons m rest ih =>
      unfold checkEnvelope at h
      split at h
      · exact ih h
      · cases h
        rfl

theorem checkMeta_error {labels : Option Json} {e : KnlError}
    (h : checkMeta labels = .error e) : e.isValidation = true := by
  have hl : ∀ o, checkLabels o = .error e → e.isValidation = true := by
    intro o
    induction o with
    | nil => intro h; cases h
    | cons m rest ih =>
        intro h
        unfold checkLabels at h
        split at h
        · exact ih h
        · cases h
          rfl
  unfold checkMeta at h
  split at h
  · cases h
  · exact hl _ h
  · cases h
    rfl

theorem checkData_error {data : Option Json} {e : KnlError}
    (h : checkData data = .error e) : e.isValidation = true := by
  unfold checkData at h
  split at h <;> cases h
  rfl

theorem checkRequired_error {kind : String} {data : Obj} {fields : List (String × Shape)}
    {e : KnlError} (h : checkRequired kind data fields = .error e) :
    e.isValidation = true := by
  induction fields with
  | nil => cases h
  | cons f rest ih =>
      unfold checkRequired at h
      split at h
      · cases h
        rfl
      · split at h
        · exact ih h
        · cases h
          rfl

theorem checkKind_error {kind : Option Json} {e : KnlError}
    (h : checkKind kind = .error e) : e.isValidation = true := by
  unfold checkKind at h
  split at h <;> cases h <;> rfl

/-- A refused event is refused as a bad argument. -/
theorem validateEvent_error {event : Obj} {e : KnlError}
    (h : validateEvent event = .error e) : e.isValidation = true := by
  simp only [validateEvent, bind, Except.bind] at h
  split at h
  · cases h
    exact checkKind_error ‹_›
  · split at h
    · cases h
      exact checkEnvelope_error ‹_›
    · split at h
      · cases h
        exact checkMeta_error ‹_›
      · split at h
        · cases h
          exact checkData_error ‹_›
        · split at h
          · cases h
          · exact checkRequired_error h

/-- What the kernel builds is checked by its required fields alone. -/
theorem validateEvent_kernelEvent (kind : String) (data : Obj) :
    validateEvent (kernelEvent kind data) =
      match requiredData kind with
      | none => .ok ()
      | some fields => checkRequired kind data fields := by
  simp [validateEvent, kernelEvent_eq, checkKind, checkEnvelope, checkMeta, checkData,
    Obj.get?, ENVELOPE_FIELDS, bind, Except.bind]

end AgentBlock.Knl
