/-
AgentBlock/Policy/Checkpoint.lean

The recorded states of the files, read off a log.

A content is recorded once, under its version, and a state names the version of
each file.  Reading a state joins the two: the latest state that followed a beat,
and for each version it names the content the log holds under it.

Main results:

* `Honest.contents` — in a log whose records name their contents' own versions, a
  version reads as the content it was recorded with;
* `checkpointAt_latest` — the state that is read is the latest of its beat, each
  file with the content that has its version.
-/
import AgentBlock.Policy.Window

namespace AgentBlock.Policy

open Shell (isKind dataOf)

def CHECKPOINT_KIND : String := "checkpoint"
def BLOB_KIND : String := "checkpoint_blob"
def BASELINE : String := "baseline"

/-! ### One record -/

/-- The entries of a table whose values are strings. -/
def stringFields : Lua → List (String × String)
  | .table _ fields => fields.filterMap fun f => f.2.asStr.map fun s => (f.1, s)
  | _ => []

/-- The items of a table that are strings. -/
def stringItems : Lua → List String
  | .table items _ => items.filterMap Lua.asStr
  | _ => []

/-- A recorded state: the beat it follows, the version of each file that could be
read, and the files that could not. -/
structure Point where
  beat : Label
  seq : Option LuaNumber
  files : List (String × String)
  missing : List String

def seqOf (ev : Lua) : Option LuaNumber :=
  match ev.get "seq" with
  | .num n => some n
  | _ => none

/-- The beat that a state follows. -/
def followed (ev : Lua) : Label :=
  match beatOf ev with
  | none | some (.bool false) => .str BASELINE
  | some beat => beat

/-- A state as an event records it.  A malformed event is an empty state. -/
def pointOf (ev : Lua) : Point where
  beat := followed ev
  seq := seqOf ev
  files := stringFields ((dataOf ev).get "files")
  missing := stringItems ((dataOf ev).get "missing")

/-- The states of a log, in its order. -/
def checkpoints (events : List Lua) : List Point :=
  (events.filter (isKind CHECKPOINT_KIND)).map pointOf

/-- The content an event records, under its version. -/
def blobOf (ev : Lua) : Option (String × String) :=
  if isKind BLOB_KIND ev then
    match (dataOf ev).get "version", (dataOf ev).get "content" with
    | .str version, .str content => some (version, content)
    | _, _ => none
  else none

/-! ### One state -/

/-- What a reader of a log knows: the latest state of the beat it asks for, and
the contents by their versions. -/
structure Reading where
  point : Option Point := none
  contents : String → Option String := fun _ => none

def Reading.event (beat : String) (r : Reading) (ev : Lua) : Reading :=
  if isKind CHECKPOINT_KIND ev then
    if (pointOf ev).beat = .str beat then { r with point := some (pointOf ev) } else r
  else
    match blobOf ev with
    | some (version, content) =>
        { r with contents := Function.update r.contents version (some content) }
    | none => r

def reading (beat : String) (events : List Lua) : Reading := events.foldl (Reading.event beat) {}

/-- A state with the contents of its files. -/
structure FileState where
  beat : String
  files : List (String × String)
  missing : List String

/-- A file of a state, with its content. -/
def resolve (contents : String → Option String) (beat : String) (file : String × String) :
    Except Lua (String × String) :=
  match contents file.2 with
  | some content => .ok (file.1, content)
  | none =>
      .error (.str ("policy.checkpoint_at: the checkpoint after beat " ++ beat ++ " records " ++
        file.1 ++ " at version " ++ file.2 ++
        ", and no checkpoint_blob in the log carries that version — the log is not whole"))

/-- The state that followed a beat, if one was recorded. -/
def checkpointAt (events : List Lua) (beat : String) : Except Lua (Option FileState) :=
  let r := reading beat events
  match r.point with
  | none => .ok none
  | some point => do
      let files ← point.files.mapM (resolve r.contents beat)
      .ok (some { beat, files, missing := point.missing })

/-! ### What is read -/

section

variable {versionOf : String → String} {held : Set String} {beat : String}
variable {events : List Lua}

/-- The contents of a log stand under their own versions. -/
def Honest (versionOf : String → String) (held : Set String) (events : List Lua) : Prop :=
  ∀ ev ∈ events, isKind BLOB_KIND ev = true →
    ∃ content ∈ held, blobOf ev = some (versionOf content, content)

theorem Honest.append {more : List Lua} (h : Honest versionOf held events)
    (hm : Honest versionOf held more) : Honest versionOf held (events ++ more) :=
  fun ev hev => (List.mem_append.mp hev).elim (h ev) (hm ev)

theorem reading_concat (ev : Lua) :
    reading beat (events ++ [ev]) = (reading beat events).event beat ev := by
  simp [reading]

theorem blobOf_of_checkpoint {ev : Lua} (h : isKind CHECKPOINT_KIND ev = true) :
    blobOf ev = none := by
  have hkind : ev.get "kind" = .str CHECKPOINT_KIND := Lua.eq_str.mp h
  have hblob : isKind BLOB_KIND ev = false := by
    rw [isKind, hkind]
    decide
  rw [blobOf, if_neg (by rw [hblob]; exact Bool.false_ne_true)]

theorem isKind_of_blobOf {ev : Lua} {blob : String × String} (h : blobOf ev = some blob) :
    isKind BLOB_KIND ev = true := by
  rw [blobOf] at h
  split at h
  · assumption
  · cases h

theorem Honest.blob (h : Honest versionOf held events) {ev : Lua} (hev : ev ∈ events)
    {version content : String} (hblob : blobOf ev = some (version, content)) :
    version = versionOf content ∧ content ∈ held := by
  obtain ⟨c, hc, hown⟩ := h ev hev (isKind_of_blobOf hblob)
  cases hblob.symm.trans hown
  exact ⟨rfl, hc⟩

/-- The contents that are read after one more event. -/
theorem contents_concat (ev : Lua) (version : String) :
    (reading beat (events ++ [ev])).contents version =
      match blobOf ev with
      | some (v, c) => if v = version then some c else (reading beat events).contents version
      | none => (reading beat events).contents version := by
  rw [reading_concat, Reading.event]
  split
  · next hcheck =>
    rw [blobOf_of_checkpoint hcheck]
    split <;> rfl
  · cases hblob : blobOf ev with
    | none => rfl
    | some vc =>
        obtain ⟨v, c⟩ := vc
        simp only [Function.update_apply]
        by_cases hv : v = version
        · rw [if_pos hv, if_pos hv.symm]
        · rw [if_neg hv, if_neg fun h => hv h.symm]

/-- **A version reads as the content it was recorded with**, whatever else was
recorded before or after. -/
theorem Honest.contents (h : Honest versionOf held events)
    (hinj : Set.InjOn versionOf held) {ev : Lua} (hev : ev ∈ events)
    {version content : String} (hblob : blobOf ev = some (version, content)) :
    (reading beat events).contents version = some content := by
  obtain ⟨hversion, hmem⟩ := h.blob hev hblob
  induction events using List.reverseRecOn with
  | nil => cases hev
  | append_singleton events last ih =>
      rw [contents_concat]
      have hrest : Honest versionOf held events :=
        fun e he => h e (List.mem_append_left _ he)
      cases hlast : blobOf last with
      | none =>
          obtain hev | hev := List.mem_append.mp hev
          · exact ih hrest hev
          · obtain rfl := List.mem_singleton.mp hev
            rw [hlast] at hblob
            cases hblob
      | some vc =>
          obtain ⟨v, c⟩ := vc
          obtain ⟨hv, hc⟩ := @Honest.blob _ _ _ h last (by simp) _ _ hlast
          by_cases hsame : v = version
          · -- another record of the version is one of the same content
            have hcontent : c = content := hinj hc hmem (by rw [← hv, hsame, hversion])
            simp [hsame, hcontent]
          · obtain hev | hev := List.mem_append.mp hev
            · simp only [if_neg hsame]
              exact ih hrest hev
            · obtain rfl := List.mem_singleton.mp hev
              rw [hlast] at hblob
              cases hblob
              exact absurd rfl hsame

/-- The latest state of a beat is the one that is read. -/
theorem reading_point {before after : List Lua} {ev : Lua}
    (hkind : isKind CHECKPOINT_KIND ev = true) (hbeat : (pointOf ev).beat = .str beat)
    (hafter : ∀ e ∈ after, isKind CHECKPOINT_KIND e = true → (pointOf e).beat ≠ .str beat) :
    (reading beat (before ++ ev :: after)).point = some (pointOf ev) := by
  induction after using List.reverseRecOn with
  | nil =>
      rw [reading_concat, Reading.event, if_pos hkind, if_pos hbeat]
  | append_singleton after last ih =>
      rw [← List.cons_append, ← List.append_assoc, reading_concat, Reading.event]
      have hrest := ih fun e he => hafter e (List.mem_append_left _ he)
      split
      · next hlast =>
        rw [if_neg (hafter last (by simp) hlast)]
        exact hrest
      · split
        · exact hrest
        · exact hrest

/-- **The state that is read** is the latest one of its beat, each file with the
content that has its version. -/
theorem checkpointAt_latest {before after : List Lua} {ev : Lua} {contentOf : String → String}
    (hkind : isKind CHECKPOINT_KIND ev = true) (hbeat : (pointOf ev).beat = .str beat)
    (hafter : ∀ e ∈ after, isKind CHECKPOINT_KIND e = true → (pointOf e).beat ≠ .str beat)
    (hfiles : ∀ file ∈ (pointOf ev).files,
      (reading beat (before ++ ev :: after)).contents file.2 = some (contentOf file.1)) :
    checkpointAt (before ++ ev :: after) beat = .ok (some {
      beat, missing := (pointOf ev).missing
      files := (pointOf ev).files.map fun file => (file.1, contentOf file.1) }) := by
  have hpoint := @reading_point beat before after ev hkind hbeat hafter
  have hmap : (pointOf ev).files.mapM
      (resolve (reading beat (before ++ ev :: after)).contents beat) =
      .ok ((pointOf ev).files.map fun file => (file.1, contentOf file.1)) :=
    Except.mapM_eq_ok fun file hfile => by rw [resolve, hfiles file hfile]
  rw [checkpointAt]
  simp only [hpoint, hmap]
  rfl

end

end AgentBlock.Policy
