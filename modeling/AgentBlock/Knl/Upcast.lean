/-
AgentBlock/Knl/Upcast.lean

A version-1 record as today's readers see it.

An earlier release wrote the beat beside `meta`.  Its record comes forward by one
of two ways: read from a log with the beat where it was (`upcast`), or imported
from the old table, where the beat has a column, and read then.  The one sets the
label, and the other leaves the label that `meta` had.

Main results:

* `upcast_versionOne`, `upcast_imported` — what each way makes of a record;
* `routes_agree` — they make the same of it, and lose nothing, exactly if `meta`
  has no label that the beat contradicts;
* `label_overwritten` — where it has one.
-/
import AgentBlock.Knl.Logs

namespace AgentBlock.Knl

/-! ### The step -/

/-- The beat among the labels; where `meta` is no object it stays where it was. -/
def beatIntoMeta (map : Obj) : Obj :=
  match map.get? FIELD_BEAT with
  | none => map
  | some beat =>
      let map := map.remove FIELD_BEAT
      match (map.get? FIELD_META).getD (.obj []) with
      | .obj labels => map.insert FIELD_META (.obj (Obj.insert labels FIELD_BEAT beat))
      | _ => map.insert FIELD_BEAT beat

/-- `BeatIntoMeta::upcast`. -/
def upcast : Json → Json
  | .obj map =>
      match Obj.get? map SCHEMA_VERSION_FIELD with
      | some (.num (.int 1)) =>
          .obj ((beatIntoMeta map).insert SCHEMA_VERSION_FIELD (.num (.int 2)))
      | _ => .obj map
  | event => event

/-! ### Records -/

/-- What an earlier release recorded of an event. -/
structure VersionOne where
  stream : String
  seq : Nat
  epochMs : Nat
  kind : String
  beat : Option String
  labels : Obj
  data : Obj
  labels_sorted : (labels.map Prod.fst).Pairwise (· < ·)

namespace VersionOne

variable (r : VersionOne)

/-- The record with these labels, and no beat beside them. -/
def envelope (labels : Obj) : Obj :=
  let event := Obj.insert [] FIELD_KIND (.str r.kind)
  let event := event.insert FIELD_META (.obj labels)
  let event := event.insert FIELD_DATA (.obj r.data)
  let event := event.insert FIELD_SEQ (.num (.int r.seq))
  let event := event.insert FIELD_EPOCH_MS (.num (.int r.epochMs))
  event.insert SCHEMA_VERSION_FIELD (.num (.int 1))

/-- The record as an event: its beat, if it has one, is a top-level field. -/
def event : Obj :=
  match r.beat with
  | none => r.envelope r.labels
  | some beat => (r.envelope r.labels).insert FIELD_BEAT (.str beat)

/-- The record as a row of the old table: its beat has a column. -/
structure IsRow (fromStr : String → Option Json) (row : LegacyRow) : Prop where
  stream : row.stream = r.stream
  seq : row.seq.val = r.seq
  epochMs : row.epochMs.val = r.epochMs
  kind : row.kind = r.kind
  schemaVersion : row.schemaVersion.val = 1
  beat : row.beat = r.beat
  labels : fromStr row.labels = some (.obj r.labels)
  data : fromStr row.data = some (.obj r.data)

/-- An event is the record brought forward: no label is lost, the beat is one of
them, and the other fields are as they were. -/
structure BroughtForward (e : Obj) : Prop where
  labels : ∃ labels : Obj, e.get? FIELD_META = some (.obj labels) ∧
    (∀ key v, r.labels.get? key = some v → labels.get? key = some v) ∧
    ∀ beat, r.beat = some beat → labels.get? FIELD_BEAT = some (.str beat)
  others : ∀ key, key ≠ FIELD_BEAT → key ≠ FIELD_META → key ≠ SCHEMA_VERSION_FIELD →
    e.get? key = r.event.get? key
  schemaVersion : e.get? SCHEMA_VERSION_FIELD = some (.num (.int CURRENT_SCHEMA_VERSION))
  beat : e.get? FIELD_BEAT = none

/-- The two ways a record comes forward agree, on an event that is the record
brought forward. -/
def RoutesAgree (fromStr : String → Option Json) (row : LegacyRow) : Prop :=
  ∃ exported e, legacyRow fromStr row = .ok (r.seq, exported) ∧
    upcast (.obj r.event) = .obj e ∧ upcast (.obj exported.event) = .obj e ∧ r.BroughtForward e

/-! ### What each way makes of a record -/

/-- The labels with the beat among them. -/
def beatLabelled (labels : Obj) : Option String → Obj
  | none => labels
  | some beat => labels.insert FIELD_BEAT (.str beat)

/-- The record at today's shape, with these labels. -/
def current (labels : Obj) : Obj :=
  (r.envelope labels).insert SCHEMA_VERSION_FIELD (.num (.int CURRENT_SCHEMA_VERSION))

theorem envelope_sorted (labels : Obj) :
    ((r.envelope labels).map Prod.fst).Pairwise (· < ·) := by
  unfold envelope
  iterate 6 apply Obj.insert_sorted
  exact List.Pairwise.nil

variable {r}

@[simp] theorem get?_envelope (labels : Obj) (key : String) : (r.envelope labels).get? key =
    if key = SCHEMA_VERSION_FIELD then some (.num (.int 1))
    else if key = FIELD_EPOCH_MS then some (.num (.int r.epochMs))
    else if key = FIELD_SEQ then some (.num (.int r.seq))
    else if key = FIELD_DATA then some (.obj r.data)
    else if key = FIELD_META then some (.obj labels)
    else if key = FIELD_KIND then some (.str r.kind)
    else none := by
  simp only [envelope, Obj.get?_insert, Obj.get?_nil]

@[simp] theorem get?_event (key : String) : r.event.get? key =
    if key = FIELD_BEAT then r.beat.map .str else (r.envelope r.labels).get? key := by
  rcases hbeat : r.beat with - | beat
  · rw [show r.event = r.envelope r.labels by rw [event, hbeat]]
    by_cases h : key = FIELD_BEAT
    · simp [h]
    · rw [if_neg h]
  · rw [show r.event = (r.envelope r.labels).insert FIELD_BEAT (.str beat) by rw [event, hbeat]]
    by_cases h : key = FIELD_BEAT
    · rw [if_pos h, h, Obj.get?_insert_self]
      rfl
    · rw [if_neg h, Obj.get?_insert_of_ne _ _ (Ne.symm h)]

theorem upcast_of_one {map : Obj} (h : map.get? SCHEMA_VERSION_FIELD = some (.num (.int 1))) :
    upcast (.obj map) = .obj ((beatIntoMeta map).insert SCHEMA_VERSION_FIELD (.num (.int 2))) := by
  simp only [upcast, h]

/-- **Read from a log**: the label is the beat. -/
theorem upcast_versionOne : upcast (.obj r.event) =
    .obj (r.current (beatLabelled r.labels r.beat)) := by
  rw [upcast_of_one (by simp), current]
  rcases hbeat : r.beat with - | beat
  · have hmap : beatIntoMeta r.event = r.envelope r.labels := by
      have hnone : (r.envelope r.labels).get? FIELD_BEAT = none := by simp
      rw [event, hbeat]
      show beatIntoMeta (r.envelope r.labels) = r.envelope r.labels
      rw [beatIntoMeta, hnone]
    rw [hmap]
    rfl
  · have hevent : r.event = (r.envelope r.labels).insert FIELD_BEAT (.str beat) := by
      rw [event, hbeat]
    have hmap : beatIntoMeta r.event = (r.event.remove FIELD_BEAT).insert FIELD_META
        (.obj (r.labels.insert FIELD_BEAT (.str beat))) := by
      have hsome : r.event.get? FIELD_BEAT = some (.str beat) := by simp [hbeat]
      have hmeta : (r.event.remove FIELD_BEAT).get? FIELD_META = some (.obj r.labels) := by
        rw [Obj.get?_remove_of_ne _ (by decide)]
        simp
      rw [beatIntoMeta, hsome]
      simp only [hmeta, Option.getD_some]
    rw [hmap]
    -- the beat that was put beside `meta` is gone again
    refine congrArg (fun o : Obj => Json.obj (o.insert SCHEMA_VERSION_FIELD _)) ?_
    refine Obj.ext_sorted (Obj.insert_sorted (Obj.remove_sorted ?_)) (envelope_sorted _ _) ?_
    · rw [hevent]
      exact Obj.insert_sorted (envelope_sorted _ _)
    · intro key
      by_cases hm : key = FIELD_META
      · rw [hm, Obj.get?_insert_self]
        simp [beatLabelled]
      · rw [Obj.get?_insert_of_ne _ _ (Ne.symm hm)]
        by_cases hb : key = FIELD_BEAT
        · rw [hb, Obj.get?_remove_self]
          simp
        · rw [Obj.get?_remove_of_ne _ (Ne.symm hb), get?_event, if_neg hb, get?_envelope,
            get?_envelope, if_neg hm, if_neg hm]

/-- **Imported, and read then**: the label is the beat where there was none. -/
theorem upcast_imported {fromStr : String → Option Json} {row : LegacyRow}
    (h : r.IsRow fromStr row) :
    ∃ exported, legacyRow fromStr row = .ok (r.seq, exported) ∧
      upcast (.obj exported.event) = .obj (r.current (withBeat r.labels r.beat)) := by
  have hseq : row.seq.asU64 = r.seq := by
    have hval := I64.asU64_of_nonneg (a := row.seq) (by rw [h.seq]; exact Int.natCast_nonneg _)
    rw [h.seq] at hval
    exact Int.ofNat.inj hval
  have hepoch : row.epochMs.asU64 = r.epochMs := by
    have hval := I64.asU64_of_nonneg (a := row.epochMs)
      (by rw [h.epochMs]; exact Int.natCast_nonneg _)
    rw [h.epochMs] at hval
    exact Int.ofNat.inj hval
  have hversion : row.schemaVersion.asU64 = 1 := by
    rw [I64.asU64, h.schemaVersion]
    rfl
  refine ⟨⟨r.stream, r.envelope (withBeat r.labels r.beat)⟩, ?_, ?_⟩
  · simp only [legacyRow, decodeObject, h.labels, h.data, hseq, hepoch, hversion, h.stream, h.kind,
      h.beat, bind, Except.bind]
    rfl
  · have hnone : (r.envelope (withBeat r.labels r.beat)).get? FIELD_BEAT = none := by simp
    rw [upcast_of_one (by simp), beatIntoMeta, hnone]
    rfl

/-! ### The two ways together -/

/-- Where the labels keep what they were, and the beat is one of them, the record
was brought forward. -/
theorem broughtForward_current {labels : Obj}
    (hkept : ∀ key v, r.labels.get? key = some v → labels.get? key = some v)
    (hbeat : ∀ beat, r.beat = some beat → labels.get? FIELD_BEAT = some (.str beat)) :
    r.BroughtForward (r.current labels) where
  labels := ⟨labels, by simp [current], hkept, hbeat⟩
  others key hb hm hv := by
    rw [current, Obj.get?_insert_of_ne _ _ (Ne.symm hv), get?_event, if_neg hb, get?_envelope,
      get?_envelope, if_neg hm, if_neg hm]
  schemaVersion := Obj.get?_insert_self _ _ _
  beat := by simp [current]

/-- No label of `meta` is one the beat contradicts. -/
def Uncontradicted (r : VersionOne) : Prop :=
  ∀ beat label, r.beat = some beat → r.labels.get? FIELD_BEAT = some label → label = .str beat

theorem beatLabelled_eq (h : r.Uncontradicted) :
    beatLabelled r.labels r.beat = withBeat r.labels r.beat := by
  rcases hbeat : r.beat with - | beat
  · rfl
  · rw [withBeat]
    split_ifs with hsome
    · -- the label is the beat already
      obtain ⟨label, hlabel⟩ := Option.isSome_iff_exists.mp hsome
      obtain rfl := h beat label hbeat hlabel
      rw [beatLabelled]
      refine Obj.ext_sorted (Obj.insert_sorted r.labels_sorted) r.labels_sorted fun key => ?_
      by_cases hkey : key = FIELD_BEAT
      · rw [hkey, Obj.get?_insert_self, hlabel]
      · exact Obj.get?_insert_of_ne _ _ (Ne.symm hkey)
    · rfl

theorem get?_beatLabelled (h : r.Uncontradicted) {key : String} {v : Json}
    (hv : r.labels.get? key = some v) : (beatLabelled r.labels r.beat).get? key = some v := by
  rcases hbeat : r.beat with - | beat
  · exact hv
  · by_cases hkey : key = FIELD_BEAT
    · subst hkey
      rw [h beat v hbeat hv]
      exact Obj.get?_insert_self _ _ _
    · exact (Obj.get?_insert_of_ne _ _ (Ne.symm hkey)).trans hv

/-- **The two ways a version-1 beat comes forward agree** exactly if `meta` has no
label that the beat contradicts. -/
theorem routes_agree {fromStr : String → Option Json} {row : LegacyRow}
    (h : r.IsRow fromStr row) : r.RoutesAgree fromStr row ↔ r.Uncontradicted := by
  constructor
  · rintro ⟨-, e, -, -, -, hforward⟩ beat label hbeat hlabel
    obtain ⟨labels, -, hkept, hcarried⟩ := hforward.labels
    have hsame := (hkept _ _ hlabel).symm.trans (hcarried beat hbeat)
    exact Option.some.inj hsame
  · intro hcond
    obtain ⟨exported, hexported, himported⟩ := upcast_imported h
    rw [← beatLabelled_eq hcond] at himported
    refine ⟨exported, _, hexported, upcast_versionOne, himported, ?_⟩
    apply broughtForward_current
    · exact fun _ _ => get?_beatLabelled hcond
    · intro beat hbeat
      rw [hbeat]
      exact Obj.get?_insert_self _ _ _

end VersionOne

/-- A record of one label, and its row. -/
def labelled (beat : Option String) (label : String) : VersionOne where
  stream := "s"
  seq := 1
  epochMs := 7
  kind := "note"
  beat := beat
  labels := [(label, .str "b0")]
  data := []
  labels_sorted := List.pairwise_singleton _ _

def labelledRow (beat : Option String) (label : String) : LegacyRow :=
  ⟨"s", ⟨1, by decide, by decide⟩, ⟨7, by decide, by decide⟩, "note",
    ⟨1, by decide, by decide⟩, beat, label, "\x7b\x7d"⟩

/-- What the texts of that row decode to. -/
def labelledText (text : String) : Option Json :=
  if text = "\x7b\x7d" then some (.obj []) else some (.obj [(text, .str "b0")])

theorem labelled_isRow (beat : Option String) {label : String} (h : label ≠ "\x7b\x7d") :
    (labelled beat label).IsRow labelledText (labelledRow beat label) where
  stream := rfl
  seq := rfl
  epochMs := rfl
  kind := rfl
  schemaVersion := rfl
  beat := rfl
  labels := if_neg h
  data := rfl

/-- The beat joins another label by both ways. -/
theorem tag_kept : (labelled (some "b1") "tag").RoutesAgree labelledText
    (labelledRow (some "b1") "tag") :=
  (VersionOne.routes_agree (labelled_isRow (some "b1") (by decide))).mpr fun _ _ _ hlabel => by
    cases hlabel

/-- A label of that name is overwritten by the one way, and kept by the other. -/
theorem label_overwritten : ¬ ∀ (r : VersionOne) (fromStr : String → Option Json) (row : LegacyRow),
    r.IsRow fromStr row → r.RoutesAgree fromStr row := by
  intro hclaim
  obtain ⟨exported, e, hexported, hlog, -, hforward⟩ :=
    hclaim _ _ _ (@labelled_isRow (some "b1") "beat" (by decide))
  obtain ⟨labels, hlabels, hkept, hcarried⟩ := hforward.labels
  have hsame := (hkept "beat" (.str "b0") rfl).symm.trans (hcarried "b1" rfl)
  exact absurd (Json.str.inj (Option.some.inj hsame)) (by decide)

end AgentBlock.Knl
