/-
AgentBlock/Knl/ViewsRead.lean

Where the shipped views read the log as it is.

What a view is to answer is said stream by stream, off each stream's own events.
A view answers it exactly where what it joins and groups by tells the log's own
parts apart: no call is answered under its id in another beat of its stream, no
beat is in two of the streams that are read, a session of the tree was opened from
one parent, and its first ending is its earliest.

Main result: `views_read_iff`.
-/
import AgentBlock.Knl.Views

namespace AgentBlock.Knl.Views

open Interleaving

/-! ### What is to be read -/

/-- The streams of a set, in order. -/
def streamsOf (asked : List String) : List String := Table.orderBy id asked.dedup

section

variable (jsonText : Json → String)

/-- The row of a call that was answered in its own beat. -/
def pairOf (events : List Current) (c : Current) : Option PairRow :=
  (events.find? fun r => answers jsonText c r && decide (beatOf jsonText r = beatOf jsonText c)).map
    (pairRow jsonText c)

/-- A row for each call that was answered in its own stream and beat. -/
def pairsOf (db : Database) (asked : List String) : List PairRow :=
  (streamsOf asked).flatMap fun s =>
    ((db.stream s).filter isToolCall).filterMap (pairOf jsonText (db.stream s))

/-- The events of a stream that are of a beat. -/
def labelled (events : List Current) : List Current :=
  events.filter fun e => beatOf jsonText e ≠ ⊥

/-- A row for each stream and each beat in it, of that beat's own events. -/
def beatsOf (db : Database) (asked : List String) : List BeatRow :=
  (streamsOf asked).flatMap fun s =>
    ((labelled jsonText (db.stream s)).map (beatOf jsonText)).dedup.map fun beat =>
      beatRow jsonText beat ((db.stream s).filter fun e => beatOf jsonText e = beat)

/-- A row for each stream with a response, of that stream's own responses. -/
def usageOf (total : List Cell → Cell) (db : Database) (asked : List String) : List UsageRow :=
  ((streamsOf asked).filter fun s => (db.stream s).any isResponse).map fun s =>
    usageRow jsonText total s ((db.stream s).filter isResponse)

/-- The sessions that are reached from one by the parents their openings
name. -/
inductive InTree (db : Database) (root : String) : String → Prop
  | root {o : Current} : o ∈ db.stream root → isOpening o = true → InTree db root root
  | child {s par : String} {o : Current} : InTree db root par → o ∈ db.stream s →
      isOpening o = true → parentOf jsonText o = Cell.text par → InTree db root s

/-- The row of a session: its opening, and its first ending. -/
structure IsTreeRow (db : Database) (row : TreeRow) : Prop where
  opened : ∃ o ∈ db.stream row.session, isOpening o = true ∧
    row.parent = parentOf jsonText o ∧ row.openedEpochMs = some o.epochMs
  closed : row.closedEpochMs = ((db.stream row.session).find? isEnding).map Current.epochMs
  openChildren : row.openChildren = ((db.stream row.session).find? isEnding).elim ⊥ fun e =>
    extract jsonText e.data FIELD_OPEN_CHILDREN

/-- Each session of the tree once, with its first ending. -/
structure IsTree (db : Database) (root : String) (rows : List TreeRow) : Prop where
  nodup : (rows.map TreeRow.session).Nodup
  mem : ∀ s, s ∈ rows.map TreeRow.session ↔ InTree jsonText db root s
  row : ∀ row ∈ rows, IsTreeRow jsonText db row

/-- **The views read the log as it is**, where they are not cut short. -/
structure ViewsRead (total : List Cell → Cell) (db : Database) (asked : List String)
    (root : String) : Prop where
  toolPairs : ∀ limit rows, toolPairs jsonText db asked limit = (rows, false) →
    rows = pairsOf jsonText db asked
  beats : ∀ limit rows, beats jsonText db asked limit = (rows, false) →
    rows.Perm (beatsOf jsonText db asked)
  usage : ∀ limit rows, usage jsonText total db asked limit = (rows, false) →
    rows.Perm (usageOf jsonText total db asked)
  tree : ∀ limit rows, tree jsonText db root limit = (rows, false) → IsTree jsonText db root rows

/-- An opening that is of the tree: the root's own, or of a session of it. -/
def Admitted (db : Database) (root s : String) (o : Current) : Prop :=
  s = root ∨ ∃ par, InTree jsonText db root par ∧ parentOf jsonText o = Cell.text par

/-- **What a view joins and groups by tells the log's parts apart.** -/
structure ToldApart (db : Database) (asked : List String) (root : String) : Prop where
  /-- A call is answered under its id once in its stream, and in its own beat. -/
  calls : ∀ s ∈ asked, ∀ c ∈ db.stream s, isToolCall c = true → ∀ r ∈ db.stream s,
    answers jsonText c r = true → beatOf jsonText r = beatOf jsonText c ∧
      ∀ r' ∈ db.stream s, answers jsonText c r' = true → r' = r
  /-- A beat is in one of the streams that are read. -/
  beats : ∀ s ∈ asked, ∀ s' ∈ asked, ∀ e ∈ db.stream s, ∀ e' ∈ db.stream s',
    beatOf jsonText e ≠ ⊥ → beatOf jsonText e' = beatOf jsonText e → s' = s
  /-- The openings of a session that are of the tree name one parent, and the
  session was earliest opened from it. -/
  openings : ∀ s, InTree jsonText db root s → ∃ o ∈ db.stream s, isOpening o = true ∧
    ∀ o' ∈ db.stream s, isOpening o' = true → o.epochMs ≤ o'.epochMs ∧
      (Admitted jsonText db root s o' → parentOf jsonText o' = parentOf jsonText o)
  /-- A session was first ended when it was earliest ended. -/
  endings : ∀ s, InTree jsonText db root s → ∀ e ∈ (db.stream s).find? isEnding,
    ∀ e' ∈ db.stream s, isEnding e' = true → e.epochMs ≤ e'.epochMs

end

/-! ### Reads -/

section

variable {α : Type} {rows : List α}

/-- A read that is not cut short is of all the rows. -/
theorem capRows_iff {P : List α → Prop} :
    (∀ limit read, capRows limit rows = (read, false) → P read) ↔ P rows := by
  constructor
  · intro h
    refine h rows.length rows ?_
    rw [capRows, List.take_length, decide_eq_false (lt_irrefl _)]
  · intro h limit read hread
    obtain ⟨hrows, hcut⟩ := Prod.mk.inj hread
    rw [← hrows, List.take_of_length_le (not_lt.mp (of_decide_eq_false hcut))]
    exact h

end

/-! ### Rows and streams -/

section

variable {db : Database} {s : String} {asked : List String}

theorem mem_streamsOf : s ∈ streamsOf asked ↔ s ∈ asked := by
  rw [streamsOf, Table.orderBy_perm.mem_iff, List.mem_dedup]

theorem nodup_streamsOf (asked : List String) : (streamsOf asked).Nodup :=
  Table.orderBy_perm.nodup_iff.mpr (List.nodup_dedup asked)

/-- The rows of a stream are its events under its name. -/
theorem map_stream (db : Database) (s : String) :
    (db.stream s).map (Row.mk s) = db.filter fun row => row.stream = s := by
  rw [Database.stream, List.map_map]
  refine (List.map_congr_left fun row hrow => ?_).trans (List.map_id _)
  obtain rfl := of_decide_eq_true (List.mem_filter.mp hrow).2
  rfl

/-- Two events of one stream have different seqs. -/
theorem pairwise_seq (h : Numbered db) (s : String) :
    (db.stream s).Pairwise fun a b => a.seq < b.seq :=
  List.pairwise_map.mp (h s ▸ List.pairwise_lt_range')

theorem eq_of_seq_eq (h : Numbered db) {a b : Current} (ha : a ∈ db.stream s)
    (hb : b ∈ db.stream s) (hseq : a.seq = b.seq) : a = b := by
  have hnodup : ((db.stream s).map Current.seq).Nodup := h s ▸ List.nodup_range'
  exact List.inj_on_of_nodup_map hnodup ha hb hseq

/-- **The rows of a set of streams** are, in order, the events of each. -/
theorem rowsIn_eq (h : Numbered db) (asked : List String) :
    rowsIn db asked = (streamsOf asked).flatMap fun s => (db.stream s).map (Row.mk s) := by
  refine (Table.eq_orderBy ?_ ?_ ?_).symm
  · have hparts : ((streamsOf asked).flatMap fun s => (db.stream s).map (Row.mk s)) =
        (streamsOf asked).flatMap fun s => db.filter fun row => row.stream = s :=
      List.flatMap_congr fun s _ => map_stream db s
    rw [hparts]
    refine (Table.flatMap_filter_perm (nodup_streamsOf asked)).trans (List.Perm.of_eq ?_)
    exact List.filter_congr fun row _ => by rw [decide_eq_decide]; exact mem_streamsOf
  · refine List.pairwise_flatMap.mpr ⟨fun s _ => ?_, ?_⟩
    · refine List.pairwise_map.mpr ((pairwise_seq h s).imp fun hlt => ?_)
      exact Prod.Lex.toLex_le_toLex.mpr (.inr ⟨rfl, hlt.le⟩)
    · have hlt : (streamsOf asked).Pairwise (· < ·) := by
        refine (Table.orderBy_pairwise.and (nodup_streamsOf asked)).imp fun ⟨hle, hne⟩ => ?_
        exact lt_of_le_of_ne hle hne
      refine hlt.imp fun hst a ha b hb => ?_
      obtain ⟨e, -, rfl⟩ := List.mem_map.mp ha
      obtain ⟨e', -, rfl⟩ := List.mem_map.mp hb
      exact Prod.Lex.toLex_le_toLex.mpr (.inl hst)
  · rintro ⟨s, e⟩ ha ⟨s', e'⟩ hb hkey
    obtain ⟨hs, hseq⟩ := Prod.mk.inj hkey
    obtain rfl : s = s' := hs
    have hab : e = e' := eq_of_seq_eq h (Database.mem_stream.mpr (List.mem_of_mem_filter ha))
      (Database.mem_stream.mpr (List.mem_of_mem_filter hb)) hseq
    rw [hab]

end

/-! ### Tool pairs -/

section

variable {jsonText : Json → String} {db : Database} {asked : List String}

/-- The calls of the streams, in order. -/
def callRows (db : Database) (asked : List String) : List Row :=
  (rowsIn db asked).filter fun c => isToolCall c.event

theorem mem_callRows {c : Row} :
    c ∈ callRows db asked ↔ c.stream ∈ asked ∧ c.event ∈ db.stream c.stream ∧
      isToolCall c.event = true := by
  rw [callRows, List.mem_filter, rowsIn, Table.orderBy_perm.mem_iff, List.mem_filter,
    decide_eq_true_eq, Database.mem_stream]
  exact ⟨fun ⟨⟨hc, hs⟩, hcall⟩ => ⟨hs, hc, hcall⟩, fun ⟨hs, hc, hcall⟩ => ⟨⟨hc, hs⟩, hcall⟩⟩

/-- What answers a call in its stream. -/
def foundFor (jsonText : Json → String) (db : Database) (c : Row) : List Current :=
  (db.stream c.stream).filter fun r => answers jsonText c.event r

/-- What answers it in its own beat. -/
def ownFor (jsonText : Json → String) (db : Database) (c : Row) : Option Current :=
  (db.stream c.stream).find? fun r =>
    answers jsonText c.event r && decide (beatOf jsonText r = beatOf jsonText c.event)

theorem ownFor_eq_some {c : Row} {r : Current} (h : ownFor jsonText db c = some r) :
    r ∈ db.stream c.stream ∧ answers jsonText c.event r = true ∧
      beatOf jsonText r = beatOf jsonText c.event := by
  have hfound : (answers jsonText c.event r &&
      decide (beatOf jsonText r = beatOf jsonText c.event)) = true :=
    @List.find?_some _ (fun r => answers jsonText c.event r &&
      decide (beatOf jsonText r = beatOf jsonText c.event)) _ _ h
  obtain ⟨hanswers, hbeat⟩ := Bool.and_eq_true_iff.mp hfound
  exact ⟨List.mem_of_find?_eq_some h, hanswers, of_decide_eq_true hbeat⟩

theorem mem_foundFor_of_ownFor {c : Row} {r : Current} (h : r ∈ ownFor jsonText db c) :
    r ∈ foundFor jsonText db c := by
  obtain ⟨hr, hanswers, -⟩ := ownFor_eq_some h
  exact List.mem_filter.mpr ⟨hr, hanswers⟩

theorem pairsOf_eq (h : Numbered db) (asked : List String) :
    pairsOf jsonText db asked = (callRows db asked).filterMap fun c =>
      (ownFor jsonText db c).map (pairRow jsonText c.event) := by
  rw [callRows, rowsIn_eq h, List.filterMap_filter, List.filterMap_flatMap, pairsOf]
  refine List.flatMap_congr fun s _ => ?_
  rw [List.filterMap_map, List.filterMap_filter]
  rfl

/-- All that answers a call is what does in its own beat, exactly where there is
no other. -/
theorem foundFor_eq_iff (h : Numbered db) (c : Row) :
    foundFor jsonText db c = (ownFor jsonText db c).toList ↔
      ∀ r ∈ db.stream c.stream, answers jsonText c.event r = true →
        beatOf jsonText r = beatOf jsonText c.event ∧
          ∀ r' ∈ db.stream c.stream, answers jsonText c.event r' = true → r' = r := by
  constructor
  · intro heq r hr hanswers
    have hmem : ∀ r ∈ db.stream c.stream, answers jsonText c.event r = true →
        ownFor jsonText db c = some r := by
      intro r hr hanswers
      have hfound : r ∈ (ownFor jsonText db c).toList :=
        heq ▸ List.mem_filter.mpr ⟨hr, hanswers⟩
      exact Option.mem_toList.mp hfound
    refine ⟨(ownFor_eq_some (hmem r hr hanswers)).2.2, fun r' hr' hanswers' => ?_⟩
    exact Option.some.inj ((hmem r' hr' hanswers').symm.trans (hmem r hr hanswers))
  · intro hall
    have hnodup : (foundFor jsonText db c).Nodup :=
      ((pairwise_seq h c.stream).imp fun hlt heq => absurd (heq ▸ hlt) (lt_irrefl _)).filter _
    cases hown : ownFor jsonText db c with
    | none =>
        refine List.filter_eq_nil_iff.mpr fun r hr hanswers => ?_
        have hno := List.find?_eq_none.mp hown r hr
        rw [hanswers, (hall r hr hanswers).1, decide_eq_true rfl] at hno
        exact hno rfl
    | some r =>
        obtain ⟨hr, hanswers, -⟩ := ownFor_eq_some hown
        have honly : ∀ r' ∈ foundFor jsonText db c, r' = r := by
          intro r' hr'
          obtain ⟨hr', hanswers'⟩ := List.mem_filter.mp hr'
          exact (hall r hr hanswers).2 r' hr' hanswers'
        have hmem : r ∈ foundFor jsonText db c := mem_foundFor_of_ownFor hown
        exact List.perm_singleton.mp ((List.perm_ext_iff_of_nodup hnodup
          (List.nodup_singleton r)).mpr fun r' =>
            ⟨fun h => List.mem_singleton.mpr (honly r' h),
              fun h => List.mem_singleton.mp h ▸ hmem⟩)

/-- **The pairs are those of the log** exactly where each call is answered under
its id in its own beat only, and once. -/
theorem toolPairsSql_iff (h : Numbered db) :
    toolPairsSql jsonText db asked = pairsOf jsonText db asked ↔
      ∀ s ∈ asked, ∀ c ∈ db.stream s, isToolCall c = true → ∀ r ∈ db.stream s,
        answers jsonText c r = true → beatOf jsonText r = beatOf jsonText c ∧
          ∀ r' ∈ db.stream s, answers jsonText c r' = true → r' = r := by
  rw [pairsOf_eq h asked]
  have hown : ∀ c ∈ callRows db asked, ∀ r ∈ ownFor jsonText db c, r ∈ foundFor jsonText db c :=
    fun c _ r hr => mem_foundFor_of_ownFor hr
  refine (Table.flatMap_eq_filterMap_iff hown fun c => pairRow jsonText c.event).trans ?_
  constructor
  · intro hall s hs c hc hcall
    exact (foundFor_eq_iff h ⟨s, c⟩).mp (hall ⟨s, c⟩ (mem_callRows.mpr ⟨hs, hc, hcall⟩))
  · intro hall c hc
    obtain ⟨hs, hev, hcall⟩ := mem_callRows.mp hc
    exact (foundFor_eq_iff h c).mpr (hall c.stream hs c.event hev hcall)

end

/-! ### Beats -/

section

variable {jsonText : Json → String} {db : Database} {asked : List String}

/-- The events of a stream that are of a beat, as rows. -/
def labelledRows (jsonText : Json → String) (db : Database) (s : String) : List Row :=
  (labelled jsonText (db.stream s)).map (Row.mk s)

theorem mem_labelledRows {s : String} {row : Row} :
    row ∈ labelledRows jsonText db s ↔
      row.stream = s ∧ row.event ∈ db.stream s ∧ beatOf jsonText row.event ≠ ⊥ := by
  rw [labelledRows, labelled, List.mem_map]
  constructor
  · rintro ⟨e, he, rfl⟩
    exact ⟨rfl, List.mem_of_mem_filter he, of_decide_eq_true (List.mem_filter.mp he).2⟩
  · rintro ⟨rfl, he, hne⟩
    exact ⟨row.event, List.mem_filter.mpr ⟨he, decide_eq_true hne⟩, rfl⟩

theorem rowsIn_labelled (h : Numbered db) (asked : List String) :
    ((rowsIn db asked).filter fun row => beatOf jsonText row.event ≠ ⊥) =
      ((streamsOf asked).map (labelledRows jsonText db)).flatten := by
  rw [rowsIn_eq h, List.filter_flatMap, ← List.flatMap_def]
  exact List.flatMap_congr fun s _ => List.filter_map

theorem beatsOf_eq (db : Database) (asked : List String) :
    beatsOf jsonText db asked =
      ((streamsOf asked).map (labelledRows jsonText db)).flatMap fun rows =>
        (Table.groups (fun row : Row => beatOf jsonText row.event) rows).map
          (rowOfGroup jsonText) := by
  rw [List.flatMap_map, beatsOf]
  refine List.flatMap_congr fun s _ => ?_
  rw [Table.groups, List.map_map, labelledRows, List.map_map]
  refine List.map_congr_left fun beat hbeat => ?_
  obtain ⟨e, he, rfl⟩ := List.mem_map.mp (List.mem_dedup.mp hbeat)
  have hne : beatOf jsonText e ≠ ⊥ := of_decide_eq_true (List.mem_filter.mp he).2
  show beatRow jsonText (beatOf jsonText e) _ = beatRow jsonText (beatOf jsonText e)
    ((List.filter (fun row => beatOf jsonText row.event = beatOf jsonText e)
      ((labelled jsonText (db.stream s)).map (Row.mk s))).map Row.event)
  rw [List.filter_map, List.map_map, labelled, List.filter_filter]
  refine congrArg _ ((List.filter_congr fun e' _ => ?_).trans (List.map_id _).symm)
  simp only [Function.comp_apply]
  by_cases hsame : beatOf jsonText e' = beatOf jsonText e
  · rw [hsame, decide_eq_true hne, decide_eq_true rfl]
    rfl
  · rw [decide_eq_false hsame]
    rfl

/-- **The beats are those of the log** exactly where no beat is in two of the
streams. -/
theorem beatsSql_iff (h : Numbered db) :
    (beatsSql jsonText db asked).Perm (beatsOf jsonText db asked) ↔
      ∀ s ∈ asked, ∀ s' ∈ asked, ∀ e ∈ db.stream s, ∀ e' ∈ db.stream s',
        beatOf jsonText e ≠ ⊥ → beatOf jsonText e' = beatOf jsonText e → s' = s := by
  rw [beatsSql, rowsIn_labelled h, beatsOf_eq]
  refine (List.Perm.congr_left Table.orderBy_perm _).trans ?_
  refine (Table.groups_flatten_perm_iff (rowOfGroup jsonText)).trans ?_
  rw [Table.Disjoint, List.pairwise_map]
  constructor
  · intro hpair s hs s' hs' e he e' he' hne heq
    by_contra hss
    have hsymm : Std.Symm fun a b => ∀ x ∈ labelledRows jsonText db a,
        ∀ y ∈ labelledRows jsonText db b, beatOf jsonText x.event ≠ beatOf jsonText y.event :=
      ⟨fun a b hab x hx y hy => (hab y hy x hx).symm⟩
    have hdiff := hpair.forall (mem_streamsOf.mpr hs) (mem_streamsOf.mpr hs') (Ne.symm hss)
    exact hdiff ⟨s, e⟩ (mem_labelledRows.mpr ⟨rfl, he, hne⟩) ⟨s', e'⟩
      (mem_labelledRows.mpr ⟨rfl, he', heq ▸ hne⟩) heq.symm
  · intro hall
    refine (nodup_streamsOf asked).imp_of_mem fun {s s'} hs hs' hne row hrow row' hrow' heq => ?_
    obtain ⟨rfl, he, hbeat⟩ := mem_labelledRows.mp hrow
    obtain ⟨rfl, he', -⟩ := mem_labelledRows.mp hrow'
    exact hne (hall _ (mem_streamsOf.mp hs) _ (mem_streamsOf.mp hs') _ he _ he' hbeat heq.symm).symm

end

/-! ### Usage -/

section

variable {jsonText : Json → String} {db : Database} {asked : List String}

/-- The responses of the streams. -/
def responseRows (db : Database) (asked : List String) : List Row :=
  (db.filter fun row => row.stream ∈ asked).filter fun row => isResponse row.event

theorem mem_responseRows {row : Row} :
    row ∈ responseRows db asked ↔
      row.stream ∈ asked ∧ row.event ∈ db.stream row.stream ∧ isResponse row.event = true := by
  rw [responseRows, List.mem_filter, List.mem_filter, decide_eq_true_eq, Database.mem_stream]
  exact ⟨fun ⟨⟨hrow, hs⟩, hr⟩ => ⟨hs, hrow, hr⟩, fun ⟨hs, hrow, hr⟩ => ⟨⟨hrow, hs⟩, hr⟩⟩

/-- The responses of one of them. -/
theorem responseRows_of {s : String} (hs : s ∈ asked) :
    ((responseRows db asked).filter fun row => row.stream = s).map Row.event =
      (db.stream s).filter isResponse := by
  rw [Database.stream, List.filter_map, responseRows, List.filter_filter, List.filter_filter,
    List.filter_filter]
  refine congrArg _ (List.filter_congr fun row _ => ?_)
  by_cases hrow : row.stream = s
  · rw [hrow, decide_eq_true hs, decide_eq_true rfl]
    simp
  · rw [decide_eq_false hrow]
    simp

/-- **The usage is that of the log.** -/
theorem usageSql_perm (total : List Cell → Cell) (db : Database) (asked : List String) :
    (usageSql jsonText total db asked).Perm (usageOf jsonText total db asked) := by
  have hkeys : ((responseRows db asked).map Row.stream).dedup.Perm
      ((streamsOf asked).filter fun s => (db.stream s).any isResponse) := by
    refine (List.perm_ext_iff_of_nodup (List.nodup_dedup _)
      ((nodup_streamsOf asked).filter _)).mpr fun s => ?_
    rw [List.mem_dedup, List.mem_map, List.mem_filter, mem_streamsOf, List.any_eq_true]
    constructor
    · rintro ⟨row, hrow, rfl⟩
      obtain ⟨hs, he, hr⟩ := mem_responseRows.mp hrow
      exact ⟨hs, row.event, he, hr⟩
    · rintro ⟨hs, e, he, hr⟩
      exact ⟨⟨s, e⟩, mem_responseRows.mpr ⟨hs, he, hr⟩, rfl⟩
  refine Table.orderBy_perm.trans ?_
  rw [Table.groups, List.map_map, usageOf]
  refine (hkeys.map _).trans (List.Perm.of_eq (List.map_congr_left fun s hs => ?_))
  have hasked : s ∈ asked := mem_streamsOf.mp (List.mem_of_mem_filter hs)
  exact congrArg (usageRow jsonText total s) (responseRows_of hasked)

end

/-! ### The tree -/

section

variable {jsonText : Json → String} {db : Database} {root s : String} {node : String × Cell}

/-- Every opening, with the parent it names. -/
def openedNodes (jsonText : Json → String) (db : Database) : List (String × Cell) :=
  (db.filter fun row => isOpening row.event).map (nodeOf jsonText)

theorem mem_openedNodes :
    node ∈ openedNodes jsonText db ↔
      ∃ o ∈ db.stream node.1, isOpening o = true ∧ node.2 = parentOf jsonText o := by
  rw [openedNodes, List.mem_map]
  constructor
  · rintro ⟨row, hrow, rfl⟩
    obtain ⟨hrow, ho⟩ := List.mem_filter.mp hrow
    exact ⟨row.event, Database.mem_stream.mpr hrow, ho, rfl⟩
  · rintro ⟨o, hmem, ho, hnode⟩
    exact ⟨⟨node.1, o⟩, List.mem_filter.mpr ⟨Database.mem_stream.mp hmem, ho⟩,
      Prod.ext rfl hnode.symm⟩

theorem mem_rootNodes :
    node ∈ rootNodes jsonText db root ↔ node ∈ openedNodes jsonText db ∧ node.1 = root := by
  rw [rootNodes, openedNodes, List.mem_map, List.mem_map]
  simp only [List.mem_filter, Bool.decide_and, Bool.and_eq_true, decide_eq_true_eq]
  constructor
  · rintro ⟨row, ⟨hrow, ho, hs⟩, rfl⟩
    exact ⟨⟨row, ⟨hrow, ho⟩, rfl⟩, hs⟩
  · rintro ⟨⟨row, ⟨hrow, ho⟩, rfl⟩, hs⟩
    exact ⟨row, ⟨hrow, ho, hs⟩, rfl⟩

theorem mem_childNodes {par : String × Cell} :
    node ∈ childNodes jsonText db par ↔
      node ∈ openedNodes jsonText db ∧ node.2 = Cell.text par.1 := by
  rw [childNodes, openedNodes, List.mem_map, List.mem_map]
  simp only [List.mem_filter, Bool.decide_and, Bool.and_eq_true, decide_eq_true_eq]
  constructor
  · rintro ⟨row, ⟨hrow, ho, hpar⟩, rfl⟩
    exact ⟨⟨row, ⟨hrow, ho⟩, rfl⟩, hpar⟩
  · rintro ⟨⟨row, ⟨hrow, ho⟩, rfl⟩, hpar⟩
    exact ⟨row, ⟨hrow, ho, hpar⟩, rfl⟩

theorem length_openedNodes_lt (db : Database) :
    (openedNodes jsonText db).length < db.length + 1 := by
  rw [openedNodes, List.length_map]
  exact Nat.lt_succ_of_le (List.length_filter_le _ _)

theorem mem_nodes :
    node ∈ nodes jsonText db root ↔
      ∃ start ∈ rootNodes jsonText db root, Worklist.Leads (childNodes jsonText db) start node :=
  Worklist.mem_reached_iff (fun _ h => (mem_rootNodes.mp h).1)
    (fun _ _ _ h => (mem_childNodes.mp h).1) (length_openedNodes_lt db)

theorem nodup_nodes (db : Database) (root : String) : (nodes jsonText db root).Nodup :=
  Worklist.nodup_reached (fun _ h => (mem_rootNodes.mp h).1)
    (fun _ _ _ h => (mem_childNodes.mp h).1) (length_openedNodes_lt db)

/-- A session with an opening that is of the tree is in it. -/
theorem Admitted.inTree {o : Current} (h : Admitted jsonText db root s o) (ho : o ∈ db.stream s)
    (hopen : isOpening o = true) : InTree jsonText db root s := by
  rcases h with rfl | ⟨par, hpar, hnames⟩
  · exact .root ho hopen
  · exact .child hpar ho hopen hnames

/-- A session of the tree is met with one of its openings. -/
theorem InTree.met (h : InTree jsonText db root s) : ∃ par, (s, par) ∈ nodes jsonText db root := by
  induction h with
  | @root o ho hopen =>
      have hnode : (root, parentOf jsonText o) ∈ openedNodes jsonText db :=
        mem_openedNodes.mpr ⟨o, ho, hopen, rfl⟩
      exact ⟨_, mem_nodes.mpr ⟨_, mem_rootNodes.mpr ⟨hnode, rfl⟩, .refl⟩⟩
  | @child s par o _ ho hopen hnames ih =>
      obtain ⟨grand, hmet⟩ := ih
      obtain ⟨start, hstart, hleads⟩ := mem_nodes.mp hmet
      have hnode : (s, parentOf jsonText o) ∈ openedNodes jsonText db :=
        mem_openedNodes.mpr ⟨o, ho, hopen, rfl⟩
      exact ⟨_, mem_nodes.mpr ⟨start, hstart, hleads.tail (mem_childNodes.mpr ⟨hnode, hnames⟩)⟩⟩

/-- **The openings that are met** are those of the tree. -/
theorem mem_nodes_iff :
    node ∈ nodes jsonText db root ↔ ∃ o ∈ db.stream node.1, isOpening o = true ∧
      node.2 = parentOf jsonText o ∧ Admitted jsonText db root node.1 o := by
  constructor
  · intro h
    obtain ⟨start, hstart, hleads⟩ := mem_nodes.mp h
    induction hleads with
    | refl =>
        obtain ⟨hopened, hroot⟩ := mem_rootNodes.mp hstart
        obtain ⟨o, ho, hopen, hpar⟩ := mem_openedNodes.mp hopened
        exact ⟨o, ho, hopen, hpar, .inl hroot⟩
    | @tail par node hled hstep ih =>
        obtain ⟨o₁, ho₁, hopen₁, -, hadm₁⟩ := ih (mem_nodes.mpr ⟨start, hstart, hled⟩)
        obtain ⟨hopened, hnames⟩ := mem_childNodes.mp hstep
        obtain ⟨o, ho, hopen, hpar⟩ := mem_openedNodes.mp hopened
        exact ⟨o, ho, hopen, hpar, .inr ⟨par.1, hadm₁.inTree ho₁ hopen₁, hpar ▸ hnames⟩⟩
  · rintro ⟨o, ho, hopen, hpar, hadm⟩
    have hopened : node ∈ openedNodes jsonText db := mem_openedNodes.mpr ⟨o, ho, hopen, hpar⟩
    rcases hadm with hroot | ⟨par, htree, hnames⟩
    · exact mem_nodes.mpr ⟨node, mem_rootNodes.mpr ⟨hopened, hroot⟩, .refl⟩
    · obtain ⟨grand, hmet⟩ := htree.met
      obtain ⟨start, hstart, hleads⟩ := mem_nodes.mp hmet
      exact mem_nodes.mpr ⟨start, hstart,
        hleads.tail (mem_childNodes.mpr ⟨hopened, hpar ▸ hnames⟩)⟩

theorem inTree_iff_met :
    InTree jsonText db root s ↔ ∃ par, (s, par) ∈ nodes jsonText db root := by
  refine ⟨InTree.met, fun ⟨par, hmet⟩ => ?_⟩
  obtain ⟨o, ho, hopen, -, hadm⟩ := mem_nodes_iff.mp hmet
  exact hadm.inTree ho hopen

/-- The earliest time of the events of a kind. -/
theorem earliest_iff {events : List Current} {kind : Current → Bool} {t : Nat} :
    ((events.filter kind).map Current.epochMs).min? = some t ↔
      (∃ e ∈ events, kind e = true ∧ e.epochMs = t) ∧
        ∀ e ∈ events, kind e = true → t ≤ e.epochMs := by
  rw [List.min?_eq_some_iff, List.mem_map]
  simp only [List.mem_filter, List.mem_map, forall_exists_index, and_imp]
  constructor
  · rintro ⟨⟨e, ⟨he, hkind⟩, ht⟩, hle⟩
    exact ⟨⟨e, he, hkind, ht⟩, fun e' he' hkind' => hle _ e' he' hkind' rfl⟩
  · rintro ⟨⟨e, he, hkind, ht⟩, hle⟩
    refine ⟨⟨e, ⟨he, hkind⟩, ht⟩, ?_⟩
    rintro _ e' he' hkind' rfl
    exact hle e' he' hkind'

/-- The first of the endings by their seqs is the first in the stream. -/
theorem firstEnding_eq (h : Numbered db) (s : String) :
    (Table.orderBy Current.seq ((db.stream s).filter isEnding)).head? =
      (db.stream s).find? isEnding := by
  have hsorted : (db.stream s).filter isEnding =
      Table.orderBy Current.seq ((db.stream s).filter isEnding) := by
    refine Table.eq_orderBy (.refl _) (((pairwise_seq h s).filter _).imp fun hlt => hlt.le) ?_
    intro a ha b hb hseq
    exact eq_of_seq_eq h (List.mem_of_mem_filter ha) (List.mem_of_mem_filter hb) hseq
  rw [← hsorted, List.head?_filter]

/-- The earliest ending is the first exactly where no later one is dated before
it. -/
theorem closed_iff (s : String) :
    (((db.stream s).filter isEnding).map Current.epochMs).min? =
        ((db.stream s).find? isEnding).map Current.epochMs ↔
      ∀ e ∈ (db.stream s).find? isEnding, ∀ e' ∈ db.stream s, isEnding e' = true →
        e.epochMs ≤ e'.epochMs := by
  cases hfirst : (db.stream s).find? isEnding with
  | none =>
      have hnone : (db.stream s).filter isEnding = [] :=
        List.filter_eq_nil_iff.mpr (List.find?_eq_none.mp hfirst)
      rw [hnone]
      exact ⟨fun _ => nofun, fun _ => rfl⟩
  | some e =>
      rw [Option.map_some, earliest_iff]
      constructor
      · rintro ⟨-, hle⟩ e₁ he₁
        obtain rfl := Option.some.inj he₁
        exact hle
      · exact fun hle => ⟨⟨e, List.mem_of_find?_eq_some hfirst, List.find?_some hfirst, rfl⟩,
          hle e rfl⟩

/-- The row of a session that is met. -/
theorem isTreeRow_iff (h : Numbered db) :
    IsTreeRow jsonText db (treeRow jsonText db node) ↔
      (∃ o ∈ db.stream node.1, isOpening o = true ∧ node.2 = parentOf jsonText o ∧
        ∀ o' ∈ db.stream node.1, isOpening o' = true → o.epochMs ≤ o'.epochMs) ∧
      ∀ e ∈ (db.stream node.1).find? isEnding, ∀ e' ∈ db.stream node.1, isEnding e' = true →
        e.epochMs ≤ e'.epochMs := by
  constructor
  · intro hrow
    obtain ⟨o, ho, hopen, hpar, htime⟩ := hrow.opened
    exact ⟨⟨o, ho, hopen, hpar, (earliest_iff.mp htime).2⟩, (closed_iff node.1).mp hrow.closed⟩
  · rintro ⟨⟨o, ho, hopen, hpar, hle⟩, hends⟩
    refine ⟨⟨o, ho, hopen, hpar, ?_⟩, (closed_iff node.1).mpr hends, ?_⟩
    · exact earliest_iff.mpr ⟨⟨o, ho, hopen, rfl⟩, hle⟩
    · show (Table.orderBy Current.seq ((db.stream node.1).filter isEnding)).head?.elim ⊥ _ = _
      rw [firstEnding_eq h]
      rfl

/-- Every session of a tree is met once exactly where no two of its openings
that are met name different parents. -/
theorem isTree_iff_met :
    IsTree jsonText db root (treeSql jsonText db root) ↔
      (∀ a ∈ nodes jsonText db root, ∀ b ∈ nodes jsonText db root, a.1 = b.1 → a = b) ∧
      ∀ node ∈ nodes jsonText db root, IsTreeRow jsonText db (treeRow jsonText db node) := by
  have hperm : (treeSql jsonText db root).Perm
      ((nodes jsonText db root).map (treeRow jsonText db)) := Table.orderBy_perm
  have hsessions : ((treeSql jsonText db root).map TreeRow.session).Perm
      ((nodes jsonText db root).map Prod.fst) := by
    refine (hperm.map _).trans (List.Perm.of_eq ?_)
    rw [List.map_map]
    rfl
  have hnodup : ((treeSql jsonText db root).map TreeRow.session).Nodup ↔
      ∀ a ∈ nodes jsonText db root, ∀ b ∈ nodes jsonText db root, a.1 = b.1 → a = b := by
    rw [hsessions.nodup_iff]
    exact List.nodup_map_iff_inj_on (nodup_nodes db root)
  constructor
  · intro htree
    refine ⟨hnodup.mp htree.nodup, fun node hnode => ?_⟩
    exact htree.row _ (hperm.mem_iff.mpr (List.mem_map_of_mem hnode))
  · rintro ⟨honce, hrows⟩
    refine ⟨hnodup.mpr honce, fun s => ?_, fun row hrow => ?_⟩
    · rw [hsessions.mem_iff, List.mem_map, inTree_iff_met]
      constructor
      · rintro ⟨node, hnode, rfl⟩
        exact ⟨node.2, hnode⟩
      · exact fun ⟨par, hmet⟩ => ⟨(s, par), hmet, rfl⟩
    · obtain ⟨node, hnode, rfl⟩ := List.mem_map.mp (hperm.mem_iff.mp hrow)
      exact hrows node hnode

/-- **The tree is that of the log** exactly where each session of it was opened
from one, and first ended when it was earliest ended. -/
theorem isTree_iff (h : Numbered db) :
    IsTree jsonText db root (treeSql jsonText db root) ↔
      ∀ s, InTree jsonText db root s →
        (∃ o ∈ db.stream s, isOpening o = true ∧
          ∀ o' ∈ db.stream s, isOpening o' = true → o.epochMs ≤ o'.epochMs ∧
            (Admitted jsonText db root s o' → parentOf jsonText o' = parentOf jsonText o)) ∧
        ∀ e ∈ (db.stream s).find? isEnding, ∀ e' ∈ db.stream s, isEnding e' = true →
          e.epochMs ≤ e'.epochMs := by
  rw [isTree_iff_met]
  constructor
  · rintro ⟨honce, hrows⟩ s hs
    obtain ⟨par, hmet⟩ := hs.met
    obtain ⟨⟨o, ho, hopen, hpar, hle⟩, hends⟩ := (isTreeRow_iff h).mp (hrows _ hmet)
    refine ⟨⟨o, ho, hopen, fun o' ho' hopen' => ⟨hle o' ho' hopen', fun hadm => ?_⟩⟩, hends⟩
    have hmet' : (s, parentOf jsonText o') ∈ nodes jsonText db root :=
      mem_nodes_iff.mpr ⟨o', ho', hopen', rfl, hadm⟩
    exact (congrArg Prod.snd (honce _ hmet' _ hmet rfl)).trans hpar
  · intro hall
    have hone : ∀ node ∈ nodes jsonText db root, ∃ o ∈ db.stream node.1, isOpening o = true ∧
        node.2 = parentOf jsonText o ∧
          ∀ o' ∈ db.stream node.1, isOpening o' = true → o.epochMs ≤ o'.epochMs ∧
            (Admitted jsonText db root node.1 o' → parentOf jsonText o' = node.2) := by
      intro node hnode
      obtain ⟨o₁, ho₁, hopen₁, hpar₁, hadm₁⟩ := mem_nodes_iff.mp hnode
      obtain ⟨⟨o, ho, hopen, hle⟩, -⟩ := hall node.1 (hadm₁.inTree ho₁ hopen₁)
      have hpar : node.2 = parentOf jsonText o := hpar₁.trans ((hle o₁ ho₁ hopen₁).2 hadm₁)
      exact ⟨o, ho, hopen, hpar, hpar ▸ hle⟩
    refine ⟨fun a ha b hb hab => ?_, fun node hnode => (isTreeRow_iff h).mpr ⟨?_, ?_⟩⟩
    · obtain ⟨_, _, _, _, hle⟩ := hone a ha
      obtain ⟨o, ho, hopen, hpar, hadm⟩ := mem_nodes_iff.mp hb
      rw [← hab] at ho hadm
      exact Prod.ext hab ((hle o ho hopen).2 hadm ▸ hpar.symm)
    · obtain ⟨o, ho, hopen, hpar, hle⟩ := hone node hnode
      exact ⟨o, ho, hopen, hpar, fun o' ho' hopen' => (hle o' ho' hopen').1⟩
    · exact (hall node.1 (inTree_iff_met.mpr ⟨node.2, hnode⟩)).2

end

/-! ### Runs -/

section

variable {calls : Call → Prop} {p : KnlPool}

/-- An event of a call of the root's, under the id a first call is given that came
without one. -/
def toolEvent (kind beat : String) (data : Obj) : Call :=
  .append rootHandle [("kind", .str kind), ("meta", .obj [("beat", .str beat)]),
    ("data", .obj (("call_id", .str "tc0000001") :: data))]

def called (beat : String) : Call :=
  toolEvent "tool_call" beat [("name", .str "read"), ("input", .obj [])]

def answered (beat : String) : Call :=
  toolEvent "tool_result" beat [("ok", .bool true), ("output", .str "")]

/-- The root makes one call in a beat. -/
def oneBeat : List (Pool.Turn Call) :=
  [.call openRoot, .perform 0, .call (called "b1"), .perform 1, .call (answered "b1"), .perform 2]

/-- And one in the next. -/
def twoBeats : List (Pool.Turn Call) :=
  oneBeat ++ [.call (called "b2"), .perform 3, .call (answered "b2"), .perform 4]

end

end AgentBlock.Knl.Views
