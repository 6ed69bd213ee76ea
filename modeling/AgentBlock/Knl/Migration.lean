/-
AgentBlock/Knl/Migration.lean

The log of an earlier release is brought forward whole, or not yet at all.

However often an open is stopped and made again, a file is at one of three
points: the old table is as it was, or it was moved aside and the log is
empty, or the log holds every event of the old table and the table is gone.
The two transactions are what moves a file from one to the next, and each
point is one an open goes on from.

Main results:

* `importTx_ok` — an import that commits leaves every stream as it was;
* `openFile_begun`, `openFile_log`, `openFile_any` — the crash triple of an open
  at each of the points, and at any of them;
* `migration_keeps_every_stream` — whatever was stopped, the old streams are
  what an open that succeeds reads.
-/
import AgentBlock.Knl.Logs

namespace AgentBlock.Knl

open Interleaving
open Prog (Safe SafeOk Restarts Alone safe_bind safeOk_bind safeOk_pure)

/-! ### What a migration is to keep -/

/-- Each stream's seqs are `1..n`. -/
def RowsNumbered (rows : List LegacyRow) : Prop :=
  ∀ s, ∃ n, ((rows.filter fun r => r.stream = s).map fun r => r.seq.val).Perm
    ((List.range' 1 n).map Int.ofNat)

/-- The rows of one stream, in the order of their seqs. -/
def rowsOf (rows : List LegacyRow) (s : String) : List LegacyRow :=
  (rows.filter fun r => r.stream = s).insertionSort fun a b => a.seq.val ≤ b.seq.val

/-- `e` is the event an old row was: the beat column is a label of `meta`,
unless `meta` had one. -/
structure Carried (fromStr : String → Option Json) (row : LegacyRow) (e : Current) :
    Prop where
  seq : (e.seq : Int) = row.seq.val
  epochMs : e.epochMs = row.epochMs.asU64
  kind : e.kind = row.kind
  schemaVersion : e.schemaVersion = row.schemaVersion.asU64
  labels : ∃ old, fromStr row.labels = some (.obj old) ∧
    ∀ key, e.labels.get? key =
      (Obj.get? old key).or (if key = FIELD_BEAT then row.beat.map Json.str else none)
  data : fromStr row.data = some (.obj e.data)

/-- The file as the earlier release left it. -/
def Untouched (rows : List LegacyRow) (file : File) : Prop :=
  file.userVersion = 0 ∧ file.events = some (.earlier rows) ∧ file.legacy = none

/-- The old table was moved aside, and nothing was imported. -/
def Aside (rows : List LegacyRow) (file : File) : Prop :=
  file.legacy = some (.earlier rows) ∧
    ((file.events = none ∧ LADDER_INDEX ∉ file.indexes) ∨ file.events = some (.log []))

/-- Every stream is in the log, and the old table is gone. -/
def Migrated (fromStr : String → Option Json) (rows : List LegacyRow) (file : File) : Prop :=
  file.legacy = none ∧ ∃ db, file.events = some (.log db) ∧
    ∀ s, List.Forall₂ (Carried fromStr) (rowsOf rows s) (db.stream s)

/-- The old events are in their table, and nowhere else. -/
def Begun (rows : List LegacyRow) (file : File) : Prop := Untouched rows file ∨ Aside rows file

/-- There is a file at the path, and it is a `P`. -/
def Holds (P : File → Prop) (disk : Disk) : Prop := ∃ file, disk = some file ∧ P file

theorem Holds.imp {P Q : File → Prop} {disk : Disk} (hPQ : ∀ f, P f → Q f)
    (h : Holds P disk) : Holds Q disk := by
  obtain ⟨file, rfl, hP⟩ := h
  exact ⟨file, rfl, hPQ file hP⟩

/-! ### Numbering -/

section Numbering

variable {rows : List LegacyRow} {s : String} {order : LegacyOrder}

theorem filter_select_perm (rows : List LegacyRow) (order : LegacyOrder) (s : String) :
    ((order.select rows).filter fun r => r.stream = s).Perm
      (rows.filter fun r => r.stream = s) :=
  (List.perm_insertionSort _ rows).filter _

theorem RowsNumbered.pos (h : RowsNumbered rows) {row : LegacyRow} (hr : row ∈ rows) :
    0 ≤ row.seq.val := by
  obtain ⟨n, hn⟩ := h row.stream
  have hmem : row.seq.val ∈ (rows.filter fun r => r.stream = row.stream).map
      fun r => r.seq.val := by
    simp only [List.mem_map, List.mem_filter, decide_eq_true_eq]
    exact ⟨row, ⟨hr, rfl⟩, rfl⟩
  obtain ⟨i, -, hi⟩ := List.mem_map.mp (hn.mem_iff.mp hmem)
  rw [← hi]
  exact Int.natCast_nonneg i

/-- A sorted arrangement of a stream's rows is the rows in the order of their
seqs: no two of them have the same. -/
theorem RowsNumbered.eq_rowsOf (h : RowsNumbered rows) {l : List LegacyRow}
    (hp : l.Perm (rows.filter fun r => r.stream = s))
    (hl : l.Pairwise fun a b => a.seq.val ≤ b.seq.val) : l = rowsOf rows s := by
  obtain ⟨n, hn⟩ := h s
  have hnodup : ((rows.filter fun r => r.stream = s).map fun r => r.seq.val).Nodup :=
    hn.nodup_iff.mpr ((List.nodup_range' (s := 1) (n := n)).map fun _ _ => Int.ofNat.inj)
  have hsort := List.perm_insertionSort (fun a b : LegacyRow => a.seq.val ≤ b.seq.val)
    (rows.filter fun r => r.stream = s)
  refine List.Perm.eq_of_pairwise (fun a b ha hb hab hba => ?_) hl
    (List.pairwise_insertionSort _ _) (hp.trans hsort.symm)
  exact List.inj_on_of_nodup_map hnodup (hp.mem_iff.mp ha) (hsort.mem_iff.mp hb)
    (Int.le_antisymm hab hba)

/-- Read in stream order, each stream's rows come in the order of their
seqs. -/
theorem filter_byStream_sorted (rows : List LegacyRow) (s : String) :
    ((LegacyOrder.byStream.select rows).filter fun r => r.stream = s).Pairwise
      fun a b => a.seq.val ≤ b.seq.val := by
  have htotal : Std.Total fun a b => LegacyOrder.byStream.le a b = true :=
    ⟨fun a b => by simpa only [LegacyOrder.le, decide_eq_true_eq] using le_total _ _⟩
  have htrans : IsTrans LegacyRow fun a b => LegacyOrder.byStream.le a b = true :=
    ⟨fun a b c => by simpa only [LegacyOrder.le, decide_eq_true_eq] using le_trans⟩
  have hsort := List.pairwise_insertionSort (LegacyOrder.byStream.le · ·) rows
  refine (hsort.filter fun r => r.stream = s).imp_of_mem fun {a b} ha hb hab => ?_
  have has : a.stream = s := by simpa using (List.mem_filter.mp ha).2
  have hbs : b.stream = s := by simpa using (List.mem_filter.mp hb).2
  simpa only [LegacyOrder.le, has, hbs, decide_eq_true_eq, Prod.Lex.toLex_le_toLex,
    lt_irrefl, true_and, false_or] using hab

theorem rowsOf_perm (rows : List LegacyRow) (s : String) :
    (rowsOf rows s).Perm (rows.filter fun r => r.stream = s) :=
  List.perm_insertionSort _ _

theorem RowsNumbered.map_rowsOf (h : RowsNumbered rows) (f : LegacyRow → Nat)
    (hf : ∀ r ∈ rows, (f r : Int) = r.seq.val) :
    (rowsOf rows s).map f = List.range' 1 (rowsOf rows s).length := by
  obtain ⟨n, hn⟩ := h s
  have hperm := (rowsOf_perm rows s).map fun r => r.seq.val
  have hlen : (rowsOf rows s).length = n := by
    simpa using (hperm.trans hn).length_eq
  -- both sides are the same numbers, in order
  have hval : (rowsOf rows s).map (fun r => r.seq.val) =
      (List.range' 1 n).map Int.ofNat := by
    have hanti : ∀ a b : Int, a ∈ (rowsOf rows s).map (fun r => r.seq.val) →
        b ∈ (List.range' 1 n).map Int.ofNat → a ≤ b → b ≤ a → a = b :=
      fun a b _ _ => Int.le_antisymm
    refine (hperm.trans hn).eq_of_pairwise hanti ?_ ?_
    · exact List.pairwise_map.mpr (List.pairwise_insertionSort _ _)
    · exact List.pairwise_map.mpr (List.pairwise_le_range'.imp Int.ofNat_le.mpr)
  rw [hlen]
  refine List.map_injective_iff.mpr (fun _ _ => Int.ofNat.inj) ?_
  rw [← hval, List.map_map]
  refine List.map_congr_left fun r hr => hf r ?_
  exact (List.mem_filter.mp ((rowsOf_perm rows s).mem_iff.mp hr)).1

end Numbering

/-! ### The import transaction -/

theorem forall₂_trans {α β γ : Type} {R : α → β → Prop} {S : β → γ → Prop}
    {T : α → γ → Prop} (h : ∀ x y z, R x y → S y z → T x z) {xs : List α} {ys : List β}
    {zs : List γ} (hxy : List.Forall₂ R xs ys) (hyz : List.Forall₂ S ys zs) :
    List.Forall₂ T xs zs := by
  induction hxy generalizing zs with
  | nil => cases hyz; exact .nil
  | cons hr _ ih =>
      cases hyz with
      | cons hs hrest => exact .cons (h _ _ _ hr hs) (ih hrest)

section Import

variable {store : Eventsdb} {fromStr : String → Option Json} {rows : List LegacyRow}

/-- An old row, and what landed of its record. -/
theorem carried_of_landed {row : LegacyRow} {r : Nat × ExportedEvent} {landed : Row}
    (hpos : 0 ≤ row.seq.val) (hrow : legacyRow fromStr row = .ok r) (hl : Landed r landed) :
    landed.stream = row.stream ∧ Carried fromStr row landed.event := by
  obtain ⟨was, exported⟩ := r
  obtain ⟨rfl, hstream, labels, data, hlabels, hdata, hall⟩ := legacyRow_ok hrow
  have hevent := (hall _ _).mp hl.2
  refine ⟨hl.1.trans hstream, ?_⟩
  rw [hevent]
  exact ⟨I64.asU64_of_nonneg hpos, rfl, rfl, rfl,
    ⟨labels, hlabels, get?_withBeat labels row.beat⟩, hdata⟩

/-- The seqs a stream's records had are those of its rows. -/
theorem seqsOf_legacyRows {sel : List LegacyRow} {recs : List (Nat × ExportedEvent)}
    (h : legacyRows fromStr sel = .ok recs) (s : String) :
    seqsOf recs s = (sel.filter fun r => r.stream = s).map fun r => r.seq.asU64 := by
  have hrows := legacyRows_ok h
  clear h
  induction hrows with
  | nil => rfl
  | @cons row r sel recs hrow _ ih =>
      obtain ⟨was, exported⟩ := r
      obtain ⟨rfl, hstream, -⟩ := legacyRow_ok hrow
      simp only [seqsOf, List.filter_cons, hstream] at ih ⊢
      split
      · simp only [List.map_cons, ih]
      · exact ih

/-- **An import that commits leaves every stream as it was**, and drops the old
table. -/
theorem importTx_ok (h : RowsNumbered rows) {file file' : File} {order : LegacyOrder}
    {n : Nat} {reordered : Bool} (hl : file.legacy = some (.earlier rows))
    (he : file.events = some (.log []))
    (htx : importTx store fromStr order file = (.ok (n, file'), reordered)) :
    Migrated fromStr rows file' := by
  simp only [importTx, hl, he] at htx
  split at htx
  · cases htx
  · rename_i recs hrecs
    split at htx
    · cases htx
    · rename_i db flag himport
      cases htx
      obtain ⟨more, hdb, hmore, hnum⟩ := importAll_ok himport
      obtain rfl : db = more := hdb
      refine ⟨rfl, _, rfl, fun s => ?_⟩
      have hpos : ∀ row ∈ order.select rows, 0 ≤ row.seq.val := fun row hr =>
        h.pos ((List.mem_insertionSort _).mp hr)
      -- the rows of the stream were imported in the order of their seqs
      have hsorted : ((order.select rows).filter fun r => r.stream = s).Pairwise
          fun a b => a.seq.val ≤ b.seq.val := by
        have hseqs := (seqsOf_legacyRows hrecs s).symm.trans (hnum s)
        have hle := hseqs ▸ List.pairwise_le_range' 1
        refine (List.pairwise_map.mp hle).imp_of_mem fun {a b} ha hb hab => ?_
        have haval := I64.asU64_of_nonneg (hpos a (List.mem_of_mem_filter ha))
        have hbval := I64.asU64_of_nonneg (hpos b (List.mem_of_mem_filter hb))
        omega
      rw [← h.eq_rowsOf (filter_select_perm rows order s) hsorted]
      have hall : List.Forall₂ (fun row (landed : Row) =>
          landed.stream = row.stream ∧ Carried fromStr row landed.event)
          (order.select rows) db := by
        refine forall₂_trans ?_
          ((List.forall₂_and_left _ _).mpr ⟨hpos, legacyRows_ok hrecs⟩) hmore
        exact fun row r landed hrow hland => carried_of_landed hrow.1 hrow.2 hland
      refine List.forall₂_map_right_iff.mpr
        (List.Forall₂.imp (fun _ _ hc => hc.2) (List.rel_filter (fun row landed hc => ?_) hall))
      simp only [hc.1]

end Import

/-! ### One call on a file -/

section Calls

variable {store : Eventsdb} {I : Disk → Prop} {disk : Disk} {file : File}

/-- **One call on a file that is there**: it did its work, or it failed and moved
nothing. -/
theorem safe_perform (op : FileOp) {Q : op.Ans → Disk → Prop} (hI : I (some file))
    (hdone : I (fileExec store (some file) op).2 ∧
      Q (fileExec store (some file) op).1 (fileExec store (some file) op).2)
    (hfailed : ∀ e reordered a, op.failure e reordered = some a → Q a (some file)) :
    (Prog.perform op : Prog FileOp FileOp.Ans op.Ans).Safe (FileSem store) I Q (some file) := by
  refine ⟨hI, fun a disk' h => ?_⟩
  cases h with
  | done => exact hdone
  | failed _ _ hfail => exact ⟨hI, hfailed _ _ a hfail⟩

theorem safeOk_pathExists {Q : Bool → Disk → Prop} (hI : I (some file))
    (hQ : Q true (some file)) : SafeOk (FileSem store) I Q pathExists (some file) := by
  refine safe_bind (safe_perform .pathExists hI ⟨hI, hI, fun b hb => ?_⟩ fun _ _ _ h => ?_)
  · cases hb
    exact hQ
  · cases h

theorem safeOk_connect {Q : Unit → Disk → Prop} (hI : I (some file))
    (hQ : Q () (some file)) : SafeOk (FileSem store) I Q connect (some file) :=
  safe_perform .connect hI ⟨hI, fun _ _ => hQ⟩ fun _ _ _ h _ ha => by cases h; cases ha

theorem safeOk_tableExists {Q : Bool → Disk → Prop} {table : String} (hI : I (some file))
    (hQ : Q (file.table table).isSome (some file)) :
    SafeOk (FileSem store) I Q (tableExists table) (some file) :=
  safe_perform (.tableExists table) hI ⟨hI, fun _ hb => Except.ok.inj hb ▸ hQ⟩
    fun _ _ _ h _ ha => by cases h; cases ha

theorem safeOk_userVersion {Q : Int → Disk → Prop} (hI : I (some file))
    (hQ : Q file.userVersion (some file)) :
    SafeOk (FileSem store) I Q userVersion (some file) :=
  safe_perform .userVersion hI ⟨hI, fun _ hb => Except.ok.inj hb ▸ hQ⟩
    fun _ _ _ h _ ha => by cases h; cases ha

theorem safeOk_hasColumn {Q : Bool → Disk → Prop} {table column : String}
    (hI : I (some file))
    (hQ : Q ((file.table table).elim false (column ∈ ·.columns)) (some file)) :
    SafeOk (FileSem store) I Q (hasColumn table column) (some file) :=
  safe_perform (.hasColumn table column) hI ⟨hI, fun _ hb => Except.ok.inj hb ▸ hQ⟩
    fun _ _ _ h _ ha => by cases h; cases ha

theorem safeOk_indexMeta {Q : Unit → Disk → Prop} {label : String} (hI : I (some file))
    (hQ : Q () (some file)) : SafeOk (FileSem store) I Q (indexMeta label) (some file) :=
  safe_perform (.indexMeta label) hI ⟨hI, fun _ _ => hQ⟩ fun _ _ _ h _ ha => by cases h; cases ha

theorem safeOk_transaction {Q : Unit → Disk → Prop} {body : File → Except KnlError File}
    (hI : I (some file))
    (hbody : ∀ file', body file = .ok file' → I (some file') ∧ Q () (some file')) :
    SafeOk (FileSem store) I Q (transaction body) (some file) := by
  refine safe_perform (.transaction body) hI ?_ fun _ _ _ h _ ha => by cases h; cases ha
  simp only [fileExec, Option.getD_some]
  split
  · exact ⟨(hbody _ ‹_›).1, fun b _ => (hbody _ ‹_›).2⟩
  · exact ⟨hI, fun b hb => by cases hb⟩

theorem safeOk_openWith {Q : Unit → Disk → Prop} (hI : I (some file))
    (hopen : ∀ file', file.open store = .ok file' → I (some file') ∧ Q () (some file')) :
    SafeOk (FileSem store) I Q openWith (some file) := by
  refine safe_perform .openWith hI ?_ fun _ _ _ h _ ha => by cases h; cases ha
  simp only [fileExec, Option.getD_some]
  split
  · exact ⟨(hopen _ ‹_›).1, fun b _ => (hopen _ ‹_›).2⟩
  · exact ⟨hI, fun b hb => by cases hb⟩

theorem safe_withTransaction {Q : Except KnlError Nat × Bool → Disk → Prop}
    {body : File → Except KnlError (Nat × File) × Bool} (hI : I (some file))
    (herr : ∀ e reordered, Q (.error e, reordered) (some file))
    (hbody : ∀ n file' reordered, body file = (.ok (n, file'), reordered) →
      I (some file') ∧ Q (.ok n, reordered) (some file')) :
    (Prog.perform (FileOp.withTransaction body) :
      Prog FileOp FileOp.Ans (Except KnlError Nat × Bool)).Safe (FileSem store) I Q
      (some file) := by
  refine safe_perform (.withTransaction body) hI ?_ fun _ _ _ h => by cases h; exact herr _ _
  simp only [fileExec, Option.getD_some]
  split
  · exact hbody _ _ _ ‹_›
  · exact ⟨hI, herr _ _⟩

end Calls

/-! ### The open at each point -/

section Open

variable {store : Eventsdb} {fromStr : String → Option Json} {rows : List LegacyRow}
  {file : File}

theorem moveAside_untouched (h : Untouched rows file) {file' : File}
    (hmove : moveAside file = .ok file') : Aside rows file' := by
  obtain ⟨-, he, hl⟩ := h
  simp only [moveAside, File.alterTableRename, he, hl, bind, Except.bind] at hmove
  cases hmove
  refine ⟨rfl, Or.inl ⟨rfl, fun hmem => ?_⟩⟩
  -- the name the ladder uses is among those dropped
  simp [LEGACY_INDEXES, File.dropIndex, LADDER_INDEX] at hmem

/-- Where the old events are still in their table, the open finds that out. -/
theorem prepareLegacy_begun (h : Begun rows file) :
    SafeOk (FileSem store) (Holds (Begun rows))
      (fun legacy disk => legacy = true ∧ Holds (Aside rows) disk) prepareLegacy
      (some file) := by
  have hI : Holds (Begun rows) (some file) := ⟨file, rfl, h⟩
  refine safeOk_bind (safeOk_pathExists hI ?_)
  refine safeOk_bind (safeOk_connect hI ?_)
  refine safeOk_bind (safeOk_tableExists hI ?_)
  rcases h with hun | haside
  · obtain ⟨hversion, he, hl⟩ := hun
    have hlegacy : (file.table LEGACY_TABLE).isSome = false := by
      show file.legacy.isSome = false
      rw [hl, Option.isSome_none]
    have hevents : file.table EVENTS_TABLE = some (.earlier rows) := he
    simp only [hlegacy, Bool.false_eq_true, if_false]
    refine safeOk_bind (safeOk_tableExists hI ?_)
    simp only [hevents, Option.isSome_some, Bool.not_true, Bool.false_eq_true, if_false]
    refine safeOk_bind (safeOk_userVersion hI ?_)
    simp only [hversion, ne_eq, not_true_eq_false, if_false]
    refine safeOk_bind (safeOk_hasColumn hI ?_)
    simp only [hevents, Option.elim_some]
    refine safeOk_bind (safeOk_transaction hI fun file' hmove => ?_)
    have haside := moveAside_untouched ⟨hversion, he, hl⟩ hmove
    exact ⟨⟨file', rfl, Or.inr haside⟩,
      safeOk_pure ⟨file', rfl, Or.inr haside⟩ ⟨rfl, file', rfl, haside⟩⟩
  · have hlegacy : (file.table LEGACY_TABLE).isSome = true := by
      show file.legacy.isSome = true
      rw [haside.1, Option.isSome_some]
    simp only [hlegacy, if_true]
    exact safeOk_pure hI ⟨rfl, file, rfl, haside⟩

/-- A log with no old table beside it is opened as it is. -/
theorem prepareLegacy_log {db : Database} (hl : file.legacy = none)
    (he : file.events = some (.log db)) {I : Disk → Prop} (hI : I (some file)) :
    SafeOk (FileSem store) I (fun legacy disk => legacy = false ∧ disk = some file)
      prepareLegacy (some file) := by
  have hlegacy : (file.table LEGACY_TABLE).isSome = false := by
    show file.legacy.isSome = false
    rw [hl, Option.isSome_none]
  have hevents : file.table EVENTS_TABLE = some (.log db) := he
  refine safeOk_bind (safeOk_pathExists hI ?_)
  refine safeOk_bind (safeOk_connect hI ?_)
  refine safeOk_bind (safeOk_tableExists hI ?_)
  simp only [hlegacy, Bool.false_eq_true, if_false]
  refine safeOk_bind (safeOk_tableExists hI ?_)
  simp only [hevents, Option.isSome_some, Bool.not_true, Bool.false_eq_true, if_false]
  refine safeOk_bind (safeOk_userVersion hI ?_)
  split
  · exact safeOk_pure hI ⟨rfl, rfl⟩
  · refine safeOk_bind (safeOk_hasColumn hI ?_)
    simp only [hevents, Option.elim_some]
    exact safeOk_pure hI ⟨rfl, rfl⟩

/-- The indexes an open makes move no table. -/
theorem ensureIndexes_safe {I : Disk → Prop} {P : File → Prop} (hI : ∀ f, P f → I (some f))
    (hP : ∀ f f', f'.events = f.events → f'.legacy = f.legacy → P f → P f') (h : P file) :
    SafeOk (FileSem store) I (fun _ => Holds P) ensureIndexes (some file) := by
  refine safeOk_bind (safeOk_indexMeta (hI _ h) ?_)
  refine safeOk_transaction (hI _ h) fun file' hcreate => ?_
  have hfile' : P file' := by
    simp only [File.createIndex] at hcreate
    split at hcreate
    · cases hcreate
    · cases hcreate
      refine hP file _ ?_ ?_ h <;> split <;> rfl
  exact ⟨hI _ hfile', file', rfl, hfile'⟩

/-- The old table is beside a log that holds nothing yet. -/
def Opened (rows : List LegacyRow) (file : File) : Prop :=
  file.legacy = some (.earlier rows) ∧ file.events = some (.log [])

theorem Opened.begun (h : Opened rows file) : Begun rows file := Or.inr ⟨h.1, Or.inr h.2⟩

/-- The store's open finds an empty log there, or makes one. -/
theorem open_aside (h : Aside rows file) {file' : File} (ho : file.open store = .ok file') :
    Opened rows file' := by
  obtain ⟨hl, ⟨he, hindex⟩ | he⟩ := h
  · simp only [File.open, he, hindex, if_false] at ho
    cases ho
    exact ⟨hl, rfl⟩
  · simp only [File.open, he] at ho
    cases ho
    exact ⟨hl, he⟩

/-- **An import is made whole or not at all.**  Either attempt commits, or the
old table and the empty log are as they were. -/
theorem migrateLegacy_opened (hn : RowsNumbered rows) (h : Opened rows file) :
    SafeOk (FileSem store) (Holds fun f => Begun rows f ∨ Migrated fromStr rows f)
      (fun _ => Holds (Migrated fromStr rows)) (migrateLegacy store fromStr) (some file) := by
  have hI : Holds (fun f => Begun rows f ∨ Migrated fromStr rows f) (some file) :=
    ⟨file, rfl, Or.inl h.begun⟩
  have hdone : ∀ {order n file' reordered},
      importTx store fromStr order file = (.ok (n, file'), reordered) →
        Holds (Migrated fromStr rows) (some file') := fun htx =>
    ⟨_, rfl, importTx_ok hn h.1 h.2 htx⟩
  have hstop : ∀ {disk}, Holds (Migrated fromStr rows) disk →
      Holds (fun f => Begun rows f ∨ Migrated fromStr rows f) disk := fun hm =>
    hm.imp fun _ => Or.inr
  refine safe_bind (safe_withTransaction hI (fun e reordered => ?_)
    fun n file' reordered htx => ⟨hstop (hdone htx), hstop (hdone htx), fun _ _ => hdone htx⟩)
  cases reordered with
  | false => exact ⟨hI, fun u hu => by cases hu⟩
  | true =>
      -- the clock ran backwards in some stream: once more, in stream order
      refine safe_bind (safe_withTransaction hI
        (fun e _ => ⟨hI, fun u hu => by cases hu⟩) fun n file' reordered htx =>
          ⟨hstop (hdone htx), hstop (hdone htx), fun _ _ => hdone htx⟩)

/-- **An open of a file whose events are still in the old table**: wherever it
stops they are there, or all of them in the log, and if it succeeds they are in
the log. -/
theorem openFile_begun (hn : RowsNumbered rows) (h : Begun rows file) :
    SafeOk (FileSem store) (Holds fun f => Begun rows f ∨ Migrated fromStr rows f)
      (fun _ => Holds (Migrated fromStr rows)) (openFile store fromStr) (some file) := by
  refine safeOk_bind ((prepareLegacy_begun h).mono (fun _ hb => hb.imp fun _ => Or.inl) ?_)
  rintro legacy disk ⟨rfl, f, rfl, haside⟩
  refine safeOk_bind (safeOk_openWith ⟨f, rfl, Or.inl (Or.inr haside)⟩ fun f' ho => ?_)
  have hopened := open_aside haside ho
  refine ⟨⟨f', rfl, Or.inl hopened.begun⟩, safeOk_bind ?_⟩
  refine SafeOk.mono (fun _ hs => hs) ?_ (ensureIndexes_safe (P := Opened rows)
    (fun g hg => ⟨g, rfl, Or.inl hg.begun⟩)
    (fun g g' he hl hg => ⟨hl.trans hg.1, he.trans hg.2⟩) hopened)
  rintro - disk ⟨g, rfl, hg⟩
  exact migrateLegacy_opened hn hg

/-- **An open of a log** with no old table beside it leaves the log as it
is. -/
theorem openFile_log {db : Database} {I : Disk → Prop}
    (hI : ∀ f : File, f.legacy = none ∧ f.events = some (.log db) → I (some f))
    (hl : file.legacy = none) (he : file.events = some (.log db)) :
    SafeOk (FileSem store) I
      (fun _ => Holds fun f => f.legacy = none ∧ f.events = some (.log db))
      (openFile store fromStr) (some file) := by
  refine safeOk_bind ((prepareLegacy_log hl he (hI _ ⟨hl, he⟩)).mono (fun _ hs => hs) ?_)
  rintro legacy disk ⟨rfl, rfl⟩
  refine safeOk_bind (safeOk_openWith (hI _ ⟨hl, he⟩) fun f ho => ?_)
  obtain rfl : file = f := by
    simp only [File.open, he] at ho
    cases ho
    rfl
  refine ⟨hI _ ⟨hl, he⟩, safeOk_bind ?_⟩
  refine SafeOk.mono (fun _ hs => hs) ?_ (ensureIndexes_safe hI
    (fun g g' hev hleg hg => ⟨hleg.trans hg.1, hev.trans hg.2⟩) ⟨hl, he⟩)
  intro _ disk hdisk
  exact safeOk_pure (by obtain ⟨f, rfl, hf⟩ := hdisk; exact hI f hf) hdisk

/-- **What an open does from any point of the migration.** -/
theorem openFile_any (hn : RowsNumbered rows) {disk : Disk}
    (h : Holds (fun f => Begun rows f ∨ Migrated fromStr rows f) disk) :
    SafeOk (FileSem store) (Holds fun f => Begun rows f ∨ Migrated fromStr rows f)
      (fun _ => Holds (Migrated fromStr rows)) (openFile store fromStr) disk := by
  obtain ⟨f, rfl, hb | hm⟩ := h
  · exact openFile_begun hn hb
  · obtain ⟨hl, db, he, hall⟩ := hm
    refine SafeOk.mono (fun _ hs => hs) ?_ (openFile_log
      (fun g hg => ⟨g, rfl, Or.inr ⟨hg.1, db, hg.2, hall⟩⟩) hl he)
    exact fun _ disk hdisk => hdisk.imp fun g hg => ⟨hg.1, db, hg.2, hall⟩

end Open

/-! ### When nothing fails -/

/-- What a program makes of a file when no call on it fails. -/
def calm {α : Type} (store : Eventsdb) (m : FileM α) (disk : Disk) :
    Except KnlError α × Disk :=
  m.run.run (fun op disk => fileExec store disk op) disk

section Calm

variable {store : Eventsdb} {fromStr : String → Option Json} {rows : List LegacyRow}
  {file : File} {disk : Disk}

theorem calm_bind {α β : Type} (m : FileM β) (f : β → FileM α) (disk : Disk) :
    calm store (m >>= f) disk =
      match calm store m disk with
      | (.ok b, disk') => calm store (f b) disk'
      | (.error e, disk') => (.error e, disk') := by
  show Prog.run _ (m.run >>= _) disk = _
  rw [Prog.run_bind]
  simp only [calm]
  split <;> rename_i h <;> rw [h] <;> rfl

theorem calm_bind_ok {α β : Type} {m : FileM β} {f : β → FileM α} {b : β}
    (h : (calm store m disk).1 = .ok b) :
    calm store (m >>= f) disk = calm store (f b) (calm store m disk).2 := by
  rw [calm_bind]
  split
  · rename_i heq
    rw [heq] at h ⊢
    cases h
    rfl
  · rename_i heq
    rw [heq] at h
    cases h

@[simp] theorem calm_pure {α : Type} (a : α) : calm store (pure a) disk = (.ok a, disk) := rfl

@[simp] theorem calm_pathExists : calm store pathExists disk = (.ok disk.isSome, disk) := rfl

@[simp] theorem calm_connect : calm store connect (some file) = (.ok (), some file) := rfl

@[simp] theorem calm_tableExists (table : String) :
    calm store (tableExists table) (some file) =
      (.ok (file.table table).isSome, some file) := rfl

@[simp] theorem calm_userVersion :
    calm store userVersion (some file) = (.ok file.userVersion, some file) := rfl

@[simp] theorem calm_hasColumn (table column : String) :
    calm store (hasColumn table column) (some file) =
      (.ok ((file.table table).elim false (column ∈ ·.columns)), some file) := rfl

/-- Where a crash triple holds, a run in which nothing fails ends as it says. -/
theorem calm_sound {α : Type} {I : Disk → Prop} {Q : α → Disk → Prop} {m : FileM α}
    (h : SafeOk (FileSem store) I Q m disk) {a : α} (ha : (calm store m disk).1 = .ok a) :
    Q a (calm store m disk).2 := by
  obtain ⟨tr, htr⟩ := Prog.seen_run (R := Alone)
    (fun op disk => @FileSem.done store op disk) m.run disk
  exact (h.seen htr).2 a ha

theorem calm_transaction {body : File → Except KnlError File} {file' : File}
    (h : body file = .ok file') :
    calm store (transaction body) (some file) = (.ok (), some file') := by
  show fileExec store (some file) (.transaction body) = _
  simp only [fileExec, Option.getD_some, h]
  rfl

theorem calm_openWith {file' : File} (h : file.open store = .ok file') :
    calm store openWith (some file) = (.ok (), some file') := by
  show fileExec store (some file) .openWith = _
  simp only [fileExec, Option.getD_some, h]
  rfl

theorem calm_prepareLegacy (h : Begun rows file) :
    (calm store prepareLegacy (some file)).1 = .ok true := by
  rcases h with ⟨hv, he, hl⟩ | ⟨hl, -⟩
  · have hmove : moveAside file = .ok (LEGACY_INDEXES.foldl File.dropIndex
        { file with events := none, legacy := some (.earlier rows) }) := by
      simp only [moveAside, File.alterTableRename, he, hl, bind, Except.bind]
    simp [prepareLegacy, calm_bind, File.table, he, hl, hv, Table.columns, LEGACY_TABLE,
      EVENTS_TABLE, calm_transaction hmove]
  · simp [prepareLegacy, calm_bind, File.table, hl, LEGACY_TABLE, EVENTS_TABLE]

theorem calm_prepareLegacy_log {db : Database} (hl : file.legacy = none)
    (he : file.events = some (.log db)) :
    (calm store prepareLegacy (some file)).1 = .ok false := by
  have hlegacy : file.table LEGACY_TABLE = none := hl
  have hevents : file.table EVENTS_TABLE = some (.log db) := he
  by_cases hversion : file.userVersion = 0
  · simp [prepareLegacy, calm_bind, hlegacy, hevents, hversion, Table.columns]
  · simp [prepareLegacy, calm_bind, hlegacy, hevents, hversion]

theorem calm_ensureIndexes {table : Table} (h : file.events = some table) :
    (calm store ensureIndexes (some file)).1 = .ok () := by
  have hcreate : File.createIndex CHILD_INDEX file = .ok
      (if CHILD_INDEX ∈ file.indexes then file
        else { file with indexes := CHILD_INDEX :: file.indexes }) := by
    simp only [File.createIndex, h]
  have hindex : calm store (indexMeta FIELD_BEAT) (some file) = (.ok (), some file) := rfl
  rw [ensureIndexes, calm_bind, hindex]
  exact congrArg Prod.fst (calm_transaction hcreate)

/-! ### Every row that decodes is imported -/

/-- Both JSON columns of a row are objects. -/
def Decodes (fromStr : String → Option Json) (row : LegacyRow) : Prop :=
  ∃ labels data, fromStr row.labels = some (.obj labels) ∧
    fromStr row.data = some (.obj data)

theorem Decodes.legacyRow {row : LegacyRow} (h : Decodes fromStr row) :
    ∃ r, legacyRow fromStr row = .ok r := by
  obtain ⟨labels, data, hl, hd⟩ := h
  exact ⟨_, by simp only [AgentBlock.Knl.legacyRow, decodeObject, hl, hd]; rfl⟩

theorem legacyRows_decode {sel : List LegacyRow} (h : ∀ row ∈ sel, Decodes fromStr row) :
    ∃ recs, legacyRows fromStr sel = .ok recs := by
  induction sel with
  | nil => exact ⟨[], rfl⟩
  | cons row rest ih =>
      obtain ⟨r, hr⟩ := (h row List.mem_cons_self).legacyRow
      obtain ⟨others, hothers⟩ := ih fun r hr => h r (List.mem_cons_of_mem _ hr)
      exact ⟨r :: others, by simp only [legacyRows, hr, hothers]; rfl⟩

theorem importTx_decode (htakes : store.Takes)
    (hdecode : ∀ row ∈ rows, Decodes fromStr row) (h : Opened rows file)
    (order : LegacyOrder) :
    (∃ a, importTx store fromStr order file = (.ok a, false)) ∨
      ∃ e, importTx store fromStr order file = (.error e, true) := by
  obtain ⟨recs, hrecs⟩ := legacyRows_decode fun row (hr : row ∈ order.select rows) =>
    hdecode row ((List.mem_insertionSort _).mp hr)
  simp only [importTx, h.1, h.2, hrecs]
  rcases importAll_takes htakes (legacyRows_wellformed hrecs) [] with ⟨db, hdb⟩ | ⟨e, he⟩
  · exact Or.inl ⟨_, by rw [hdb]⟩
  · exact Or.inr ⟨e, by rw [he]⟩

/-- In stream order no row is renumbered. -/
theorem importTx_byStream (htakes : store.Takes)
    (hdecode : ∀ row ∈ rows, Decodes fromStr row) (hn : RowsNumbered rows)
    (h : Opened rows file) :
    ∃ a, importTx store fromStr .byStream file = (.ok a, false) := by
  obtain ⟨recs, hrecs⟩ := legacyRows_decode
    fun row (hr : row ∈ LegacyOrder.byStream.select rows) =>
      hdecode row ((List.mem_insertionSort _).mp hr)
  have hseqs : ∀ s, seqsOf recs s = List.range' 1 (seqsOf recs s).length := by
    intro s
    rw [seqsOf_legacyRows hrecs, hn.eq_rowsOf (filter_select_perm rows _ s)
      (filter_byStream_sorted rows s), List.length_map]
    exact hn.map_rowsOf _ fun r hr => I64.asU64_of_nonneg (hn.pos hr)
  obtain ⟨db, hdb⟩ : ∃ db, importAll store recs [] = (.ok db, false) :=
    importAll_numbered htakes (legacyRows_wellformed hrecs) hseqs
  refine ⟨(recs.length, { file with events := some (.log db), legacy := none }), ?_⟩
  simp only [importTx, h.1, h.2, hrecs, hdb]

theorem run_importLegacy_ok {order : LegacyOrder} {n : Nat} {file' : File}
    {reordered : Bool} (h : importTx store fromStr order file = (.ok (n, file'), reordered)) :
    (importLegacy store fromStr order).run (fun op disk => fileExec store disk op)
      (some file) = ((.ok n, reordered), some file') := by
  show fileExec store (some file) (.withTransaction (importTx store fromStr order)) = _
  simp only [fileExec, Option.getD_some, h]
  rfl

theorem run_importLegacy_error {order : LegacyOrder} {e : KnlError} {reordered : Bool}
    (h : importTx store fromStr order file = (.error e, reordered)) :
    (importLegacy store fromStr order).run (fun op disk => fileExec store disk op)
      (some file) = ((.error e, reordered), some file) := by
  show fileExec store (some file) (.withTransaction (importTx store fromStr order)) = _
  simp only [fileExec, Option.getD_some, h]
  rfl

theorem calm_migrateLegacy (htakes : store.Takes)
    (hdecode : ∀ row ∈ rows, Decodes fromStr row) (hn : RowsNumbered rows)
    (h : Opened rows file) :
    (calm store (migrateLegacy store fromStr) (some file)).1 = .ok () := by
  have hrun : (calm store (migrateLegacy store fromStr) (some file)).1 =
      (Prog.run _ (importLegacy store fromStr .byClock >>= _) (some file)).1 := rfl
  rw [hrun, Prog.run_bind]
  rcases importTx_decode htakes hdecode h .byClock with ⟨⟨n, f⟩, hclock⟩ | ⟨e, hclock⟩
  · rw [run_importLegacy_ok hclock]
    rfl
  · obtain ⟨⟨n, f⟩, hstream⟩ := importTx_byStream htakes hdecode hn h
    rw [run_importLegacy_error hclock]
    show (Prog.run _ (importLegacy store fromStr .byStream >>= _) (some file)).1 = _
    rw [Prog.run_bind, run_importLegacy_ok hstream]
    rfl

theorem open_of_aside (h : Aside rows file) : ∃ file', file.open store = .ok file' := by
  obtain ⟨-, ⟨he, hindex⟩ | he⟩ := h
  · exact ⟨_, by simp only [File.open, he, hindex, if_false]; rfl⟩
  · exact ⟨file, by simp only [File.open, he]⟩

/-- **An open in which nothing fails succeeds** from any point of the
migration. -/
theorem calm_openFile (htakes : store.Takes)
    (hdecode : ∀ row ∈ rows, Decodes fromStr row) (hn : RowsNumbered rows)
    (h : Holds (fun f => Begun rows f ∨ Migrated fromStr rows f) disk) :
    (calm store (openFile store fromStr) disk).1 = .ok () := by
  obtain ⟨file, rfl, hb | ⟨hl, db, he, -⟩⟩ := h
  · have hprepare : (calm store prepareLegacy (some file)).1 = .ok true :=
      calm_prepareLegacy hb
    obtain ⟨-, f, hf, haside⟩ := calm_sound (prepareLegacy_begun hb) hprepare
    obtain ⟨f', ho⟩ : ∃ f', f.open store = .ok f' := open_of_aside haside
    have hopened := open_aside haside ho
    have hindexes : (calm store ensureIndexes (some f')).1 = .ok () :=
      calm_ensureIndexes hopened.2
    obtain ⟨g, hg, hopened'⟩ := calm_sound (ensureIndexes_safe (I := fun _ => True)
      (P := Opened rows) (fun _ _ => trivial)
      (fun _ _ he hl hq => ⟨hl.trans hq.1, he.trans hq.2⟩) hopened) hindexes
    rw [openFile, calm_bind_ok hprepare, hf, calm_bind, calm_openWith ho]
    show (calm store (ensureIndexes >>= _) (some f')).1 = _
    rw [calm_bind_ok hindexes, hg]
    exact calm_migrateLegacy htakes hdecode hn hopened'
  · have hprepare : (calm store prepareLegacy (some file)).1 = .ok false :=
      calm_prepareLegacy_log hl he
    obtain ⟨-, hf⟩ := calm_sound (prepareLegacy_log hl he (I := fun _ => True) trivial)
      hprepare
    have ho : file.open store = .ok file := by simp only [File.open, he]
    have hindexes : (calm store ensureIndexes (some file)).1 = .ok () :=
      calm_ensureIndexes he
    rw [openFile, calm_bind_ok hprepare, hf, calm_bind, calm_openWith ho]
    show (calm store (ensureIndexes >>= _) (some file)).1 = _
    rw [calm_bind_ok hindexes]
    rfl

end Calm

/-! ### Any number of stopped opens -/

/-- The disks that opens, stopped anywhere and made again, can leave. -/
def OpenedAgain (store : Eventsdb) (fromStr : String → Option Json) : Disk → Disk → Prop :=
  Restarts (FileSem store) (openFile store fromStr).run

/-- **The migration loses, renumbers and duplicates nothing.**  Take a table
whose streams are numbered `1..n` and any number of opens, each stopped
anywhere.  The old events are in the old table and the log is empty, or the log
holds every stream as it was and the old table is gone.  An open that succeeds
leaves the second, and it stays.  From either, an open in which nothing fails
succeeds, where the store takes what it is given and the JSON columns parse. -/
theorem migration_keeps_every_stream (store : Eventsdb) (fromStr : String → Option Json)
    {rows : List LegacyRow} (hn : RowsNumbered rows) {file : File} (h₀ : Untouched rows file)
    {disk : Disk} (h : OpenedAgain store fromStr (some file) disk) :
    (Holds (Begun rows) disk ∨ Holds (Migrated fromStr rows) disk) ∧
      (∀ tr disk', Prog.Seen (FileSem store) Alone (openFile store fromStr).run disk tr
        (.ret (.ok ())) disk' → Holds (Migrated fromStr rows) disk') ∧
      (Holds (Migrated fromStr rows) disk → ∀ disk', OpenedAgain store fromStr disk disk' →
        Holds (Migrated fromStr rows) disk') ∧
      (store.Takes → (∀ row ∈ rows, Decodes fromStr row) →
        (calm store (openFile store fromStr) disk).1 = .ok ()) := by
  have hany : Holds (fun f => Begun rows f ∨ Migrated fromStr rows f) disk :=
    Restarts.inv (fun d hd => openFile_any hn hd)
      ⟨file, rfl, Or.inl (Or.inl h₀)⟩ h
  refine ⟨?_, fun tr disk' hr => ?_, fun hm disk' hd => ?_, fun htakes hdecode => ?_⟩
  · obtain ⟨f, hf, hb | hm⟩ := hany
    · exact Or.inl ⟨f, hf, hb⟩
    · exact Or.inr ⟨f, hf, hm⟩
  · exact ((openFile_any hn hany).seen hr).2 () rfl
  · -- a log with no old table beside it is opened as it is
    obtain ⟨f, rfl, hl, db, he, hall⟩ := hm
    have hopen : ∀ d, Holds (fun g => g.legacy = none ∧ g.events = some (.log db)) d →
        SafeOk (FileSem store) (Holds fun g => g.legacy = none ∧ g.events = some (.log db))
          (fun _ => Holds fun g => g.legacy = none ∧ g.events = some (.log db))
          (openFile store fromStr) d := by
      rintro - ⟨g, rfl, hgl, hge⟩
      exact openFile_log (fun q hq => ⟨q, rfl, hq⟩) hgl hge
    exact (Restarts.inv hopen ⟨f, rfl, hl, he⟩ hd).imp fun g hg => ⟨hg.1, db, hg.2, hall⟩
  · exact calm_openFile htakes hdecode hn hany

/-- A stream whose clock ran backwards. -/
def backwards : List LegacyRow :=
  [⟨"s-a", 1, 300, "session_opened", 1, none, "\x7b\x7d", "\x7b\x7d"⟩,
    ⟨"s-a", 2, 100, "note", 1, some "b-1", "\x7b\x7d", "\x7b\x7d"⟩]

/-- A parser of the empty object. -/
def emptyObject (text : String) : Option Json :=
  if text = "\x7b\x7d" then some (.obj []) else none

/-- The file an earlier release left. -/
def earlierFile (rows : List LegacyRow) : File :=
  ⟨0, some (.earlier rows), none, LEGACY_INDEXES⟩

theorem backwards_numbered : RowsNumbered backwards := by
  intro s
  by_cases hs : "s-a" = s
  · subst hs
    exact ⟨2, by decide⟩
  · exact ⟨0, by simp [backwards, hs]⟩

theorem migration_keeps_a_backwards_clock :
    (calm rowStore (openFile rowStore emptyObject) (some (earlierFile backwards))).1 = .ok () ∧
      Holds (Migrated emptyObject backwards)
        (calm rowStore (openFile rowStore emptyObject) (some (earlierFile backwards))).2 := by
  have h₀ : Untouched backwards (earlierFile backwards) := ⟨rfl, rfl, rfl⟩
  have h := migration_keeps_every_stream rowStore emptyObject backwards_numbered h₀ .refl
  have hok := h.2.2.2 rowStore_takes fun row hr => by
    simp only [backwards, List.mem_cons, List.not_mem_nil, or_false] at hr
    rcases hr with rfl | rfl <;> exact ⟨[], [], rfl, rfl⟩
  obtain ⟨tr, htr⟩ := Prog.seen_run (R := Alone) (fun op d => @FileSem.done rowStore op d)
    (openFile rowStore emptyObject).run (some (earlierFile backwards))
  refine ⟨hok, h.2.1 tr _ ?_⟩
  have hok' : Prog.run _ (openFile rowStore emptyObject).run (some (earlierFile backwards)) =
    (.ok (), _) := Prod.ext hok rfl
  rw [hok'] at htr
  exact htr

end AgentBlock.Knl
