/-
AgentBlock/Knl/Store.lean

One database of streams, and what each call of the event store does to it.

The database is its rows in the order they landed.  A store call is an
operation (`StoreOp`): `exec` is the transaction it runs, at whatever
milliseconds the clock reads for the rows it lands, and `Sem` adds that the
store may fail, with nothing written.  A decision is a closure over what the
transaction read; what it leaves in its cells comes back with the answer.

Every row here is at the current shape: the read-time upcasters change nothing
that was written at the current version.

Main results:

* `Sem.keeps` — what every row that lands keeps, a store call keeps;
* `Sem.appends` — a store call only ever appends;
* `mem_openChildrenIn` — what the child scan finds.
-/
import AgentBlock.Knl.Budget
import AgentBlock.Lib.Prog
import Mathlib.Data.List.Sort
import Mathlib.Data.String.Basic
import Mathlib.Data.Prod.Lex

namespace AgentBlock.Knl

open Interleaving

/-! ### Rows and streams -/

/-- One stored event, under the stream it belongs to. -/
structure Row where
  stream : String
  event : Current

/-- The rows of a database, in the order they landed. -/
abbrev Database := List Row

namespace Database

/-- The events of one stream, in order. -/
def stream (db : Database) (s : String) : List Current :=
  (db.filter fun row => row.stream = s).map Row.event

variable {db more : Database} {s : String}

@[simp] theorem stream_nil : stream [] s = [] := rfl

@[simp] theorem stream_append : stream (db ++ more) s = stream db s ++ stream more s := by
  simp [stream]

@[simp] theorem stream_cons_self {e : Current} :
    stream (⟨s, e⟩ :: more) s = e :: stream more s := by
  simp [stream]

theorem stream_cons_of_ne {r : Row} (h : r.stream ≠ s) :
    stream (r :: more) s = stream more s := by
  simp [stream, h]

theorem mem_stream {e : Current} : e ∈ db.stream s ↔ ⟨s, e⟩ ∈ db := by
  simp only [stream, List.mem_map, List.mem_filter, decide_eq_true_eq]
  constructor
  · rintro ⟨⟨s', e'⟩, ⟨hr, rfl⟩, rfl⟩
    exact hr
  · exact fun h => ⟨_, ⟨h, rfl⟩, rfl⟩

theorem stream_grows {db' : Database} (h : db <+: db') : db.stream s <+: db'.stream s := by
  obtain ⟨more, rfl⟩ := h
  exact ⟨_, stream_append.symm⟩

end Database

/-! ### Writing -/

/-- Where an event landed. -/
structure Committed where
  seq : Nat
  epochMs : Nat

/-- An event on its way to the store: the coordinates it carries are dropped,
and the kernel's schema version is stamped. -/
def prepared (event : Obj) : Obj :=
  ((event.remove FIELD_SEQ).remove FIELD_EPOCH_MS).insert SCHEMA_VERSION_FIELD
    (.num (.int CURRENT_SCHEMA_VERSION))

@[simp] theorem kindOf_prepared (event : Obj) : kindOf (prepared event) = kindOf event := by
  simp [prepared, kindOf]

@[simp] theorem objectField_data_prepared (event : Obj) :
    objectField (prepared event) FIELD_DATA = objectField event FIELD_DATA := by
  simp [prepared, objectField]

@[simp] theorem objectField_meta_prepared (event : Obj) :
    objectField (prepared event) FIELD_META = objectField event FIELD_META := by
  simp [prepared, objectField]

section Append

variable (clock : Nat → Nat) (db : Database) (s : String) (event : Obj)

/-- The event as it lands at the end of a stream: the next seq, at the time
the clock has for its place in the database. -/
def landed : Current :=
  stamp (prepared event) ((db.stream s).length + 1) (clock db.length)

/-- Append one event to a stream. -/
def appendRow : Database := db ++ [⟨s, landed clock db s event⟩]

/-- Append several. -/
def appendRows (events : List Obj) : Database :=
  events.foldl (fun db event => appendRow clock db s event) db

/-- Where the last event of a stream landed. -/
def lastCommitted : Committed :=
  match (db.stream s).getLast? with
  | some e => ⟨e.seq, e.epochMs⟩
  | none => ⟨0, 0⟩

/-- Where each event of a batch landed. -/
def committedRows : Database → List Obj → List Committed
  | _, [] => []
  | db, e :: es =>
      lastCommitted (appendRow clock db s e) s :: committedRows (appendRow clock db s e) es

@[simp] theorem stream_appendRow_self :
    (appendRow clock db s event).stream s = db.stream s ++ [landed clock db s event] := by
  simp [appendRow]

theorem stream_appendRow_of_ne {s' : String} (h : s ≠ s') :
    (appendRow clock db s event).stream s' = db.stream s' := by
  simp [appendRow, Database.stream_cons_of_ne, h]

@[simp] theorem landed_kind : (landed clock db s event).kind = kindOf event := by
  simp [landed]

@[simp] theorem landed_data :
    (landed clock db s event).data = objectField event FIELD_DATA := by
  simp only [landed, stamp_data, objectField_data_prepared]

end Append

/-! ### Reading -/

/-- A selection of a stream: the kinds asked for, from a seq on, and at most
`limit` of them.  No kinds is every kind, no limit is `usize::MAX`. -/
def selected (events : List Current) (kinds : Option (List String)) (fromSeq : Nat)
    (limit : Option Nat) : List Current :=
  let found := events.filter fun e => fromSeq ≤ e.seq ∧ ∀ ks ∈ kinds, e.kind ∈ ks
  limit.elim found found.take

/-- How a closing session's children are found: the kind that opens a stream,
the kind that ends one, and where the parent is named. -/
structure ChildScan where
  opened : String
  closed : String
  parentField : String

/-- The opening rows that name `stream` as their parent, in streams that
carry no ending. -/
def openChildRows (db : Database) (stream : String) (scan : ChildScan) : List Row :=
  db.filter fun row => row.event.kind = scan.opened ∧
    stringField row.event scan.parentField = some stream ∧
    ¬ ∃ ending ∈ db, ending.stream = row.stream ∧ ending.event.kind = scan.closed

/-- The order a close records its children in: when each opened, then its
stream. -/
def childKey (row : Row) : Nat ×ₗ String := toLex (row.event.epochMs, row.stream)

/-- The streams that name `stream` as their parent and carry no ending. -/
def openChildrenIn (db : Database) (stream : String) (scan : ChildScan) : List String :=
  ((openChildRows db stream scan).insertionSort fun a b => childKey a ≤ childKey b).map
    Row.stream

theorem mem_openChildrenIn {db : Database} {stream : String} {scan : ChildScan} {c : String} :
    c ∈ openChildrenIn db stream scan ↔
      (∃ e ∈ db.stream c, e.kind = scan.opened ∧
        stringField e scan.parentField = some stream) ∧
      ¬ ∃ e ∈ db.stream c, e.kind = scan.closed := by
  simp only [openChildrenIn, List.mem_map, List.mem_insertionSort, openChildRows,
    List.mem_filter, decide_eq_true_eq, Database.mem_stream]
  constructor
  · rintro ⟨⟨s, e⟩, ⟨hmem, hk, hp, hend⟩, rfl⟩
    refine ⟨⟨e, hmem, hk, hp⟩, ?_⟩
    rintro ⟨e', hmem', hk'⟩
    exact hend ⟨_, hmem', rfl, hk'⟩
  · rintro ⟨⟨e, hmem, hk, hp⟩, hend⟩
    refine ⟨⟨c, e⟩, ⟨hmem, hk, hp, ?_⟩, rfl⟩
    rintro ⟨⟨s', e'⟩, hmem', rfl, hk'⟩
    exact hend ⟨e', hmem', hk'⟩

/-! ### The calls of a store -/

/-- A store call's own stream, and one other of the same database. -/
structure Split (α : Type) where
  own : List α
  other : List α

/-- What a decision leaves behind besides the events it builds. -/
structure Cells where
  ended : Bool := false
  occupied : Bool := false
  refused : Bool := false
  measured : I64 := 0

/-- A call of the event store, on the stream it is scoped to. -/
inductive StoreOp where
  | append (stream : String) (event : Obj)
  | appendMany (stream : String) (events : List Obj)
  | appendIf (stream : String) (kinds : Option (List String))
      (decide : List Current → Cells × Option Obj)
  | appendIfMany (stream other : String) (kinds : Option (List String))
      (decide : Split Current → Cells × Option (Split Obj))
  | appendWithOpenChildren (stream : String) (scan : ChildScan)
      (decide : List String → Obj)
  | readKinds (stream : String) (kinds : Option (List String)) (fromSeq : Nat)
      (limit : Option Nat)
  | head (stream : String)
  | detachAppend (stream : String) (event : Obj)

/-- What a call is answered when it did its work. -/
def StoreOp.Reply : StoreOp → Type
  | .append .. => Committed
  | .appendMany .. => List Committed
  | .appendIf .. => Option Committed × Cells
  | .appendIfMany .. => Option (Split Committed) × Cells
  | .appendWithOpenChildren .. => Committed
  | .readKinds .. => List Current
  | .head .. => Option Nat
  | .detachAppend .. => Unit

/-- What a call is answered. -/
abbrev StoreOp.Ans (op : StoreOp) : Type := Except KnlError op.Reply

/-- Every event of a batch passes. -/
def validateAll : List Obj → Except KnlError Unit
  | [] => .ok ()
  | event :: rest => do
      validateEvent event
      validateAll rest

/-- The transaction a call runs. -/
def exec (clock : Nat → Nat) (db : Database) : (op : StoreOp) → op.Ans × Database
  | .append s event =>
      match validateEvent event with
      | .error e => (.error e, db)
      | .ok () => (.ok (lastCommitted (appendRow clock db s event) s), appendRow clock db s event)
  | .appendMany s events =>
      match validateAll events with
      | .error e => (.error e, db)
      | .ok () => (.ok (committedRows clock s db events), appendRows clock db s events)
  | .appendIf s kinds decide =>
      match decide (selected (db.stream s) kinds 0 none) with
      | (cells, none) => (.ok (none, cells), db)
      | (cells, some event) =>
          match validateEvent event with
          | .error e => (.error e, db)
          | .ok () =>
              (.ok (some (lastCommitted (appendRow clock db s event) s), cells),
                appendRow clock db s event)
  | .appendIfMany s other kinds decide =>
      match decide ⟨selected (db.stream s) kinds 0 none,
          selected (db.stream other) none 0 (some 1)⟩ with
      | (cells, none) => (.ok (none, cells), db)
      | (cells, some split) =>
          match validateAll (split.own ++ split.other) with
          | .error e => (.error e, db)
          | .ok () =>
              let db₁ := appendRows clock db s split.own
              (.ok (some ⟨committedRows clock s db split.own,
                  committedRows clock other db₁ split.other⟩, cells),
                appendRows clock db₁ other split.other)
  | .appendWithOpenChildren s scan decide =>
      let event := decide (openChildrenIn db s scan)
      match validateEvent event with
      | .error e => (.error e, db)
      | .ok () => (.ok (lastCommitted (appendRow clock db s event) s), appendRow clock db s event)
  | .readKinds s kinds fromSeq limit =>
      (.ok (selected (db.stream s) kinds fromSeq limit), db)
  | .head s => (.ok ((db.stream s).getLast?.map Current.seq), db)
  | .detachAppend s event =>
      -- nobody is told of a refusal
      match validateEvent event with
      | .error _ => (.ok (), db)
      | .ok () => (.ok (), appendRow clock db s event)

/-- **One call of the store**: its transaction at some time of the clock, or
the store failed and nothing was written. -/
inductive Sem : (op : StoreOp) → Database → op.Ans → Database → Prop
  | done (clock : Nat → Nat) (op : StoreOp) (db : Database) :
      Sem op db (exec clock db op).1 (exec clock db op).2
  | failed (op : StoreOp) (db : Database) {e : KnlError} :
      e.isFault = true → Sem op db (.error e) db

/-! ### A call only appends -/

section Keeps

variable {I : Database → Prop}

theorem appendRows_keeps (hrow : ∀ clock db s event, I db → I (appendRow clock db s event))
    (clock : Nat → Nat) {db : Database} (s : String) (events : List Obj) (h : I db) :
    I (appendRows clock db s events) := by
  induction events generalizing db with
  | nil => exact h
  | cons event rest ih => exact ih (hrow clock db s event h)

/-- **What every row that lands keeps, a store call keeps.** -/
theorem Sem.keeps (hrow : ∀ clock db s event, I db → I (appendRow clock db s event))
    {op : StoreOp} {db db' : Database} {a : op.Ans} (hs : Sem op db a db') (h : I db) :
    I db' := by
  cases hs with
  | failed => exact h
  | done clock =>
      unfold exec
      split
      · split
        · exact h
        · exact hrow _ _ _ _ h
      · split
        · exact h
        · exact appendRows_keeps hrow _ _ _ h
      · split
        · exact h
        · split
          · exact h
          · exact hrow _ _ _ _ h
      · split
        · exact h
        · split
          · exact h
          · exact appendRows_keeps hrow _ _ _ (appendRows_keeps hrow _ _ _ h)
      · dsimp only
        split
        · exact h
        · exact hrow _ _ _ _ h
      · exact h
      · exact h
      · split
        · exact h
        · exact hrow _ _ _ _ h

end Keeps

/-- **A store call only ever appends.** -/
theorem Sem.appends {op : StoreOp} {db db' : Database} {a : op.Ans} (h : Sem op db a db') :
    db <+: db' :=
  h.keeps (I := (db <+: ·)) (fun _ _ _ _ hp => hp.trans (List.prefix_append _ _))
    List.prefix_rfl

/-- A stream only ever grows. -/
theorem Sem.stream_grows {op : StoreOp} {db db' : Database} {a : op.Ans}
    (h : Sem op db a db') (s : String) : db.stream s <+: db'.stream s :=
  Database.stream_grows h.appends

end AgentBlock.Knl
