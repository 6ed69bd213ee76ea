/-
AgentBlock/Knl/Logs.lean

Opening a log file, and bringing forward the log an earlier release wrote.

A file is its tables, and the calls made of it are operations (`FileOp`) any of
which may fail.  The earlier release kept its events in a table of its own
shape (`LegacyRow`); the open moves that table aside in one transaction, and
imports it into the store's log and drops it in another.  The store itself is
a parameter (`Eventsdb`): how it imports one record is what the migration
relies on.  So is the parser of the JSON columns.

Main results:

* `importAll_ok` — an import that went through appended one event for each
  record, under the seq the record had;
* `importAll_numbered` — and it goes through where each stream's records come
  in the order of their seqs.
-/
import AgentBlock.Knl.Store
import AgentBlock.Lib.Crash
import Mathlib.Data.List.Forall2

namespace AgentBlock.Knl

open Interleaving

/-! ### Files -/

def EVENTS_TABLE : String := "events"
def LEGACY_TABLE : String := "knl_legacy_events"

/-- The indexes an earlier release created. -/
def LEGACY_INDEXES : List String :=
  ["events_stream_kind_seq", "events_stream_beat_seq", "events_session_opened_parent"]

/-- The index the store's own first step creates. -/
def LADDER_INDEX : String := "events_stream_kind_seq"

/-- The index of `CHILD_INDEX_DDL`. -/
def CHILD_INDEX : String := "events_session_opened_parent"

/-- One row of the table an earlier release kept its events in. -/
structure LegacyRow where
  stream : String
  seq : I64
  epochMs : I64
  kind : String
  schemaVersion : I64
  beat : Option String
  labels : String
  data : String

/-- A table of events: an earlier release's, or the store's own log. -/
inductive Table where
  | earlier (rows : List LegacyRow)
  | log (db : Database)

def Table.columns : Table → List String
  | .earlier _ =>
      ["stream", "seq", "epoch_ms", "kind", "schema_version", "beat", "meta", "data"]
  | .log _ =>
      ["position", "stream", "seq", "epoch_ms", "kind", "schema_version", "meta", "data"]

/-- What a database file holds. -/
structure File where
  userVersion : Int
  events : Option Table
  legacy : Option Table
  indexes : List String

/-- What is at the path. -/
abbrev Disk := Option File

namespace File

/-- A file SQLite just created. -/
def empty : File := ⟨0, none, none, []⟩

def table (file : File) (name : String) : Option Table :=
  if name = EVENTS_TABLE then file.events
  else if name = LEGACY_TABLE then file.legacy
  else none

def noSuchTable (name : String) : KnlError := .storage ("sqlite: no such table: " ++ name)

/-- `ALTER TABLE events RENAME TO knl_legacy_events`. -/
def alterTableRename (file : File) : Except KnlError File :=
  match file.events, file.legacy with
  | none, _ => .error (noSuchTable EVENTS_TABLE)
  | some _, some _ =>
      .error (.storage ("sqlite: there is already another table or index with this name: " ++
        LEGACY_TABLE))
  | some table, none => .ok { file with events := none, legacy := some table }

/-- `DROP INDEX IF EXISTS`. -/
def dropIndex (file : File) (index : String) : File :=
  { file with indexes := file.indexes.filter (· ≠ index) }

/-- `CREATE INDEX IF NOT EXISTS … ON events`. -/
def createIndex (index : String) (file : File) : Except KnlError File :=
  match file.events with
  | none => .error (noSuchTable EVENTS_TABLE)
  | some _ =>
      .ok (if index ∈ file.indexes then file
        else { file with indexes := index :: file.indexes })

end File

/-! ### The store the events go to -/

/-- One event as it travels.  It carries no position: the earlier release had
no global order to record one in. -/
structure ExportedEvent where
  stream : String
  event : Obj

/-- `e` is the event a record carries, at `seq`. -/
structure Restamped (record : Obj) (seq : Nat) (e : Current) : Prop where
  seq : e.seq = seq
  kind : record.get? FIELD_KIND = some (.str e.kind)
  epochMs : record.get? FIELD_EPOCH_MS = some (.num (.int e.epochMs))
  schemaVersion : record.get? SCHEMA_VERSION_FIELD = some (.num (.int e.schemaVersion))
  labels : record.get? FIELD_META = some (.obj e.labels)
  data : record.get? FIELD_DATA = some (.obj e.data)

/-- The store: the version its ladder leaves in a file, and the import of one
record.  An import may refuse the record; one that does not appends it at its
stream's next seq and keeps everything but its coordinates. -/
structure Eventsdb where
  userVersion : Int
  importEvent : Database → ExportedEvent → Except KnlError (Committed × Database)
  appends : ∀ {db record committed db'}, importEvent db record = .ok (committed, db') →
    ∃ e, db' = db ++ [⟨record.stream, e⟩] ∧ committed.seq = e.seq ∧
      Restamped record.event ((db.stream record.stream).length + 1) e

/-- The record carries an event. -/
def ExportedEvent.Wellformed (record : ExportedEvent) : Prop :=
  ∃ seq e, Restamped record.event seq e

/-- The store refuses no record that carries an event. -/
def Eventsdb.Takes (store : Eventsdb) : Prop :=
  ∀ db (record : ExportedEvent), record.Wellformed → ∃ a, store.importEvent db record = .ok a

/-- The event a record carries, at `seq`. -/
def restamp (record : Obj) (seq : Nat) : Option Current :=
  match record.get? FIELD_KIND, record.get? FIELD_EPOCH_MS, record.get? SCHEMA_VERSION_FIELD,
    record.get? FIELD_META, record.get? FIELD_DATA with
  | some (.str kind), some (.num (.int (.ofNat epochMs))), some (.num (.int (.ofNat version))),
    some (.obj labels), some (.obj data) => some ⟨kind, seq, epochMs, version, labels, data⟩
  | _, _, _, _, _ => none

theorem restamp_eq_some {record : Obj} {seq : Nat} {e : Current} :
    restamp record seq = some e ↔ Restamped record seq e := by
  constructor
  · intro h
    unfold restamp at h
    split at h
    · cases h
      constructor <;> first | rfl | assumption
    · cases h
  · rintro ⟨rfl, hk, ht, hv, hl, hd⟩
    simp only [restamp, hk, ht, hv, hl, hd]

/-- The store that keeps its rows as they come. -/
def rowStore : Eventsdb where
  userVersion := 1
  importEvent db record :=
    match restamp record.event ((db.stream record.stream).length + 1) with
    | some e => .ok (⟨e.seq, e.epochMs⟩, db ++ [⟨record.stream, e⟩])
    | none => .error (.validation "the record carries no event")
  appends := by
    intro db record committed db' h
    split at h
    · rename_i e he
      cases h
      exact ⟨e, rfl, rfl, restamp_eq_some.mp he⟩
    · cases h

theorem rowStore_takes : rowStore.Takes := by
  rintro db record ⟨seq, e, he⟩
  have hre : Restamped record.event ((db.stream record.stream).length + 1)
      { e with seq := (db.stream record.stream).length + 1 } :=
    ⟨rfl, he.kind, he.epochMs, he.schemaVersion, he.labels, he.data⟩
  exact ⟨_, by simp only [rowStore, restamp_eq_some.mpr hre]; rfl⟩

/-! ### Operations -/

/-- A call made of a file.  `transaction` is one on a plain connection or
through the store's hatch; the import's says besides whether it met a row that
would have been renumbered. -/
inductive FileOp where
  | pathExists
  | connect
  | tableExists (table : String)
  | userVersion
  | hasColumn (table column : String)
  | transaction (body : File → Except KnlError File)
  | openWith
  | indexMeta (label : String)
  | withTransaction (body : File → Except KnlError (Nat × File) × Bool)

/-- What a call is answered. -/
def FileOp.Ans : FileOp → Type
  | .pathExists => Bool
  | .connect => Except KnlError Unit
  | .tableExists _ => Except KnlError Bool
  | .userVersion => Except KnlError Int
  | .hasColumn _ _ => Except KnlError Bool
  | .transaction _ => Except KnlError Unit
  | .openWith => Except KnlError Unit
  | .indexMeta _ => Except KnlError Unit
  | .withTransaction _ => Except KnlError Nat × Bool

/-- What a call is answered when it failed; asking for the path never does. -/
def FileOp.failure (e : KnlError) (reordered : Bool) : (op : FileOp) → Option op.Ans
  | .pathExists => none
  | .connect => some (.error e)
  | .tableExists _ => some (.error e)
  | .userVersion => some (.error e)
  | .hasColumn _ _ => some (.error e)
  | .transaction _ => some (.error e)
  | .openWith => some (.error e)
  | .indexMeta _ => some (.error e)
  | .withTransaction _ => some (.error e, reordered)

section Store

variable (store : Eventsdb)

/-- What the store's open makes of a file: its ladder runs in a file with no
events table, and it refuses a table it did not create. -/
def File.open (file : File) : Except KnlError File :=
  match file.events with
  | some (.log _) => .ok file
  | some (.earlier _) =>
      .error (.unsupported "the events table was not created by this store")
  | none =>
      if LADDER_INDEX ∈ file.indexes then
        .error (.storage ("sqlite: index " ++ LADDER_INDEX ++ " already exists"))
      else .ok { file with
        userVersion := store.userVersion
        events := some (.log [])
        indexes := LADDER_INDEX :: file.indexes }

/-- A call that did its work. -/
def fileExec (disk : Disk) : (op : FileOp) → op.Ans × Disk
  | .pathExists => (disk.isSome, disk)
  | .connect => (.ok (), some (disk.getD File.empty))
  | .tableExists table => (.ok (disk.bind (·.table table)).isSome, disk)
  | .userVersion => (.ok (disk.elim 0 File.userVersion), disk)
  | .hasColumn table column =>
      (.ok ((disk.bind (·.table table)).elim false (column ∈ ·.columns)), disk)
  | .transaction body =>
      match body (disk.getD File.empty) with
      | .ok file => (.ok (), some file)
      | .error e => (.error e, disk)
  | .openWith =>
      match File.open store (disk.getD File.empty) with
      | .ok file => (.ok (), some file)
      | .error e => (.error e, disk)
  | .indexMeta _ => (.ok (), disk)
  | .withTransaction body =>
      match body (disk.getD File.empty) with
      | (.ok (n, file), reordered) => ((.ok n, reordered), some file)
      -- the transaction rolls back
      | (.error e, reordered) => ((.error e, reordered), disk)

/-- **One call on a file**: it did its work, or it failed and changed nothing;
an open that failed may have created the file. -/
inductive FileSem : (op : FileOp) → Disk → op.Ans → Disk → Prop
  | done (op : FileOp) (disk : Disk) :
      FileSem op disk (fileExec store disk op).1 (fileExec store disk op).2
  | failed (op : FileOp) (disk : Disk) {e : KnlError} {reordered : Bool} {a : op.Ans} :
      op.failure e reordered = some a → FileSem op disk a disk
  | created (e : KnlError) : FileSem .openWith none (.error e) (some File.empty)

end Store

/-! ### The import -/

/-- The order the old rows are read in. -/
inductive LegacyOrder where
  | byClock
  | byStream
  deriving DecidableEq

/-- `ORDER BY epoch_ms, stream, seq`, and `ORDER BY stream, seq`. -/
def LegacyOrder.le : LegacyOrder → LegacyRow → LegacyRow → Bool
  | .byClock, a, b =>
      toLex (a.epochMs.val, toLex (a.stream, a.seq.val)) ≤
        toLex (b.epochMs.val, toLex (b.stream, b.seq.val))
  | .byStream, a, b => toLex (a.stream, a.seq.val) ≤ toLex (b.stream, b.seq.val)

/-- The rows in an order. -/
def LegacyOrder.select (order : LegacyOrder) (rows : List LegacyRow) : List LegacyRow :=
  rows.insertionSort fun a b => order.le a b

/-- The beat column as the label it became: it is set where `meta` has none of
that name. -/
def withBeat (labels : Obj) : Option String → Obj
  | none => labels
  | some beat =>
      if (labels.get? FIELD_BEAT).isSome then labels
      else labels.insert FIELD_BEAT (.str beat)

section Import

variable (store : Eventsdb) (fromStr : String → Option Json)

/-- A stored JSON column, which must be an object. -/
def decodeObject (text : String) : Except KnlError Obj :=
  match fromStr text with
  | some (.obj members) => .ok members
  | _ => .error (.storage
      ("a stored column of an earlier release's log is not an object: " ++ text))

/-- One old row, as the seq it had and the record it travels as. -/
def legacyRow (row : LegacyRow) : Except KnlError (Nat × ExportedEvent) := do
  let labels ← decodeObject fromStr row.labels
  let labels := withBeat labels row.beat
  let data ← decodeObject fromStr row.data
  let event := Obj.insert [] FIELD_KIND (.str row.kind)
  let event := event.insert FIELD_META (.obj labels)
  let event := event.insert FIELD_DATA (.obj data)
  let event := event.insert FIELD_SEQ (.num (.int row.seq.asU64))
  let event := event.insert FIELD_EPOCH_MS (.num (.int row.epochMs.asU64))
  let event := event.insert SCHEMA_VERSION_FIELD (.num (.int row.schemaVersion.asU64))
  .ok (row.seq.asU64, ⟨row.stream, event⟩)

/-- Every row of a query, or the first that does not decode. -/
def legacyRows : List LegacyRow → Except KnlError (List (Nat × ExportedEvent))
  | [] => .ok []
  | row :: rest => do
      let first ← legacyRow fromStr row
      let others ← legacyRows rest
      .ok (first :: others)

def renumbered (stream : String) (was became : Nat) : KnlError :=
  .storage ("knl: importing an earlier release's log renumbered stream " ++ quoted stream ++
    " (" ++ toString was ++ " became " ++ toString became ++
    "); the import is made again in stream order")

/-- Import the records one by one, and stop at the first whose seq is not the
one it had; that is the failure the flag is raised for. -/
def importAll : List (Nat × ExportedEvent) → Database → Except KnlError Database × Bool
  | [], db => (.ok db, false)
  | (was, exported) :: rest, db =>
      match store.importEvent db exported with
      | .error e => (.error e, false)
      | .ok (committed, db') =>
          if committed.seq ≠ was then
            (.error (renumbered exported.stream was committed.seq), true)
          else importAll rest db'

/-- The transaction of one attempt: the import and the drop land together. -/
def importTx (order : LegacyOrder) (file : File) : Except KnlError (Nat × File) × Bool :=
  match file.legacy, file.events with
  | some (.earlier rows), some (.log db) =>
      match legacyRows fromStr (order.select rows) with
      | .error e => (.error e, false)
      | .ok legacy =>
          match importAll store legacy db with
          -- the transaction rolls back; the caller still learns that the order was wrong
          | (.error e, reordered) => (.error e, reordered)
          | (.ok db', reordered) =>
              (.ok (legacy.length, { file with events := some (.log db'), legacy := none }),
                reordered)
  | some (.earlier _), _ => (.error (File.noSuchTable EVENTS_TABLE), false)
  | some (.log _), _ => (.error (.storage "no such column: beat"), false)
  | none, _ => (.error (File.noSuchTable LEGACY_TABLE), false)

end Import

/-! ### The open -/

/-- A call on a file may fail, and so may what makes it. -/
abbrev FileM : Type → Type := ExceptT KnlError (Prog FileOp FileOp.Ans)

def pathExists : FileM Bool :=
  ExceptT.lift (Prog.perform FileOp.pathExists : Prog FileOp FileOp.Ans Bool)
def connect : FileM Unit := ExceptT.mk (Prog.perform FileOp.connect)
def tableExists (table : String) : FileM Bool :=
  ExceptT.mk (Prog.perform (FileOp.tableExists table))
def userVersion : FileM Int := ExceptT.mk (Prog.perform FileOp.userVersion)
def hasColumn (table column : String) : FileM Bool :=
  ExceptT.mk (Prog.perform (FileOp.hasColumn table column))
def transaction (body : File → Except KnlError File) : FileM Unit :=
  ExceptT.mk (Prog.perform (FileOp.transaction body))
def openWith : FileM Unit := ExceptT.mk (Prog.perform FileOp.openWith)
def indexMeta (label : String) : FileM Unit :=
  ExceptT.mk (Prog.perform (FileOp.indexMeta label))

/-- The rename, and the old indexes dropped with it. -/
def moveAside (file : File) : Except KnlError File := do
  let file ← file.alterTableRename
  .ok (LEGACY_INDEXES.foldl File.dropIndex file)

/-- Whether the path holds a log to bring forward, moving it aside if so. -/
def prepareLegacy : FileM Bool := do
  if !(← pathExists) then return false
  connect
  if ← tableExists LEGACY_TABLE then return true
  if !(← tableExists EVENTS_TABLE) then return false
  if (← userVersion) ≠ 0 then return false
  if ← hasColumn EVENTS_TABLE "position" then return false
  transaction moveAside
  return true

/-- The indexes an opened log gets. -/
def ensureIndexes : FileM Unit := do
  indexMeta FIELD_BEAT
  transaction (File.createIndex CHILD_INDEX)

section Open

variable (store : Eventsdb) (fromStr : String → Option Json)

/-- One attempt at the import, in the given order. -/
def importLegacy (order : LegacyOrder) :
    Prog FileOp FileOp.Ans (Except KnlError Nat × Bool) :=
  Prog.perform (FileOp.withTransaction (importTx store fromStr order))

/-- Import by clock; only a reordering is answered by trying again. -/
def migrateLegacy : FileM Unit := ExceptT.mk do
  match ← importLegacy store fromStr .byClock with
  | (.ok _, _) => pure (.ok ())
  | (.error _, true) =>
      match ← importLegacy store fromStr .byStream with
      | (.ok _, _) => pure (.ok ())
      | (.error e, _) => pure (.error e)
  | (.error e, false) => pure (.error e)

/-- Open the file at the path. -/
def openFile : FileM Unit := do
  let legacy ← prepareLegacy
  openWith
  ensureIndexes
  if legacy then migrateLegacy store fromStr

end Open

/-! ### What an import makes -/

theorem get?_withBeat (labels : Obj) (beat : Option String) (key : String) :
    (withBeat labels beat).get? key =
      (labels.get? key).or (if key = FIELD_BEAT then beat.map Json.str else none) := by
  cases beat with
  | none => simp [withBeat]
  | some beat =>
      simp only [withBeat]
      by_cases hk : key = FIELD_BEAT
      · subst hk
        cases hl : labels.get? FIELD_BEAT <;> simp [hl]
      · split
        · simp
        · rw [Obj.get?_insert_of_ne _ _ (Ne.symm hk)]
          simp

section Import

variable {store : Eventsdb} {fromStr : String → Option Json}

theorem decodeObject_ok {text : String} {members : Obj}
    (h : decodeObject fromStr text = .ok members) : fromStr text = some (.obj members) := by
  unfold decodeObject at h
  split at h
  · cases h
    assumption
  · cases h

/-- What an old row decodes to, and the record it makes. -/
theorem legacyRow_ok {row : LegacyRow} {was : Nat} {exported : ExportedEvent}
    (h : legacyRow fromStr row = .ok (was, exported)) :
    was = row.seq.asU64 ∧ exported.stream = row.stream ∧
      ∃ labels data, fromStr row.labels = some (.obj labels) ∧
        fromStr row.data = some (.obj data) ∧
        ∀ seq e, Restamped exported.event seq e ↔
          e = ⟨row.kind, seq, row.epochMs.asU64, row.schemaVersion.asU64,
            withBeat labels row.beat, data⟩ := by
  simp only [legacyRow, bind, Except.bind] at h
  split at h
  · cases h
  · rename_i labels hlabels
    split at h
    · cases h
    · rename_i data hdata
      cases h
      refine ⟨rfl, rfl, labels, data, decodeObject_ok hlabels, decodeObject_ok hdata, ?_⟩
      refine fun seq e => ⟨fun hre => ?_, fun he => ?_⟩
      · obtain ⟨kind, seq', epochMs, version, labels', data'⟩ := e
        obtain ⟨hs, hk, ht, hv, hl, hd⟩ := hre
        simp at hs hk ht hv hl hd
        have ht : epochMs = row.epochMs.asU64 := by omega
        have hv : version = row.schemaVersion.asU64 := by omega
        simp [hs, hk, ht, hv, hl, hd]
      · subst he
        constructor <;> simp

theorem legacyRows_ok {rows : List LegacyRow} {recs : List (Nat × ExportedEvent)}
    (h : legacyRows fromStr rows = .ok recs) :
    List.Forall₂ (fun row r => legacyRow fromStr row = .ok r) rows recs := by
  induction rows generalizing recs with
  | nil => cases h; exact .nil
  | cons row rest ih =>
      simp only [legacyRows, bind, Except.bind] at h
      split at h
      · cases h
      · rename_i first hfirst
        split at h
        · cases h
        · rename_i others hothers
          cases h
          exact .cons hfirst (ih hothers)

theorem legacyRows_wellformed {rows : List LegacyRow} {recs : List (Nat × ExportedEvent)}
    (h : legacyRows fromStr rows = .ok recs) : ∀ r ∈ recs, r.2.Wellformed := by
  have hrows := legacyRows_ok h
  clear h
  induction hrows with
  | nil => exact fun r hr => absurd hr List.not_mem_nil
  | cons hrow _ ih =>
      obtain ⟨-, -, labels, data, -, -, hre⟩ := legacyRow_ok hrow
      rintro r (_ | ⟨_, hr⟩)
      · exact ⟨0, _, (hre 0 _).mpr rfl⟩
      · exact ih r hr

/-- The seqs the records of one stream had. -/
def seqsOf (recs : List (Nat × ExportedEvent)) (s : String) : List Nat :=
  (recs.filter fun r => r.2.stream = s).map Prod.fst

/-- A record and the row it became. -/
def Landed (r : Nat × ExportedEvent) (row : Row) : Prop :=
  row.stream = r.2.stream ∧ Restamped r.2.event r.1 row.event

/-- **An import that went through** appended one event for each record, under
the seq the record had, so each stream's records came in the order of their
seqs. -/
theorem importAll_ok {recs : List (Nat × ExportedEvent)} {db db' : Database}
    {reordered : Bool} (h : importAll store recs db = (.ok db', reordered)) :
    ∃ more, db' = db ++ more ∧ List.Forall₂ Landed recs more ∧
      ∀ s, seqsOf recs s =
        List.range' ((db.stream s).length + 1) (seqsOf recs s).length := by
  induction recs generalizing db with
  | nil =>
      cases h
      exact ⟨[], by simp, .nil, fun s => rfl⟩
  | cons r rest ih =>
      obtain ⟨was, exported⟩ := r
      simp only [importAll] at h
      split at h
      · cases h
      · rename_i committed db₁ himport
        split at h
        · cases h
        · rename_i hseq
          obtain ⟨e, rfl, hce, hre⟩ := store.appends himport
          have hwas : (db.stream exported.stream).length + 1 = was := by
            rw [← hre.seq, ← hce]
            exact not_not.mp hseq
          obtain ⟨more, rfl, hmore, hnum⟩ := ih h
          refine ⟨⟨exported.stream, e⟩ :: more, by simp,
            .cons ⟨rfl, hwas ▸ hre⟩ hmore, fun s => ?_⟩
          have hs := hnum s
          -- the stream the record went to has one event more for the others
          by_cases hst : exported.stream = s
          · subst hst
            simp only [Database.stream_append, Database.stream_cons_self,
              Database.stream_nil, List.length_append, List.length_cons,
              List.length_nil] at hs
            simp only [seqsOf, List.filter_cons, decide_true, if_true, List.map_cons,
              List.length_cons, List.range'_succ] at hs ⊢
            rw [hwas] at hs ⊢
            rw [← hs]
          · have hother : Database.stream [⟨exported.stream, e⟩] s = [] := by
              simp [Database.stream, hst]
            simp only [Database.stream_append, hother, List.append_nil] at hs
            simpa [seqsOf, List.filter_cons, hst] using hs

/-- **An import goes through where each stream's records come in the order of
their seqs**, if the store takes them. -/
theorem importAll_numbered (htakes : store.Takes)
    {recs : List (Nat × ExportedEvent)} (hwf : ∀ r ∈ recs, r.2.Wellformed) {db : Database}
    (h : ∀ s, seqsOf recs s =
      List.range' ((db.stream s).length + 1) (seqsOf recs s).length) :
    ∃ db', importAll store recs db = (.ok db', false) := by
  induction recs generalizing db with
  | nil => exact ⟨db, rfl⟩
  | cons r rest ih =>
      obtain ⟨was, exported⟩ := r
      obtain ⟨⟨committed, db₁⟩, himport⟩ := htakes db exported (hwf _ List.mem_cons_self)
      obtain ⟨e, rfl, hce, hre⟩ := store.appends himport
      have hhead := h exported.stream
      simp only [seqsOf, List.filter_cons, decide_true, if_true, List.map_cons,
        List.length_cons, List.range'_succ, List.cons.injEq] at hhead
      have hseq : committed.seq = was := by rw [hce, hre.seq, hhead.1]
      simp only [importAll, himport, hseq, ne_eq, not_true_eq_false, if_false]
      refine ih (fun r hr => hwf r (List.mem_cons_of_mem _ hr)) fun s => ?_
      have hs := h s
      by_cases hst : exported.stream = s
      · subst hst
        simpa [seqsOf] using hhead.2
      · simpa [seqsOf, List.filter_cons, hst, Database.stream_cons_of_ne] using hs

/-- Where the store takes every record, an import goes through or met one that
would have been renumbered. -/
theorem importAll_takes (htakes : store.Takes) {recs : List (Nat × ExportedEvent)}
    (hwf : ∀ r ∈ recs, r.2.Wellformed) (db : Database) :
    (∃ db', importAll store recs db = (.ok db', false)) ∨
      ∃ e, importAll store recs db = (.error e, true) := by
  induction recs generalizing db with
  | nil => exact Or.inl ⟨db, rfl⟩
  | cons r rest ih =>
      obtain ⟨was, exported⟩ := r
      obtain ⟨⟨committed, db₁⟩, himport⟩ := htakes db exported (hwf _ List.mem_cons_self)
      simp only [importAll, himport]
      split
      · exact Or.inr ⟨_, rfl⟩
      · exact ih (fun r hr => hwf r (List.mem_cons_of_mem _ hr)) db₁

end Import

end AgentBlock.Knl
