/-
AgentBlock/Coding/Restored.lean

What a checkpoint recorded is what `restore` writes.

Main results:

* `sweep_swept` — what one reading of the targets comes to;
* `Run.checkpointAt_record` — a recorded state is read back as it was;
* `restored_as_recorded` — the files after a restore, and the refusals that write
  nothing;
* `half_restored` — a refusal that comes after a write.
-/
import AgentBlock.Coding.Checkpoint
import AgentBlock.Lib.Except

namespace AgentBlock.Coding

open Lua (record array)
open Policy
open Shell (isKind dataOf)

variable {versionOf : String → String} {held : Set String}

/-! ### The events of a record -/

theorem blobOf_checkpointBlob (version content : String) :
    blobOf (checkpointBlob version content) = some (version, content) := rfl

section Event

variable (s : Sweep) (beat : Option String)

theorem isKind_checkpointEvent : isKind CHECKPOINT_KIND (checkpointEvent s beat) = true := rfl

theorem followed_checkpointEvent :
    (pointOf (checkpointEvent s beat)).beat = .str (beat.getD BASELINE) := by
  cases beat <;> rfl

theorem missing_checkpointEvent :
    (pointOf (checkpointEvent s beat)).missing = s.missing := by
  have hmissing : (dataOf (checkpointEvent s beat)).get "missing" =
      if s.missing.isEmpty then .nil else array (s.missing.map Lua.str) := by
    cases h : s.missing.isEmpty <;> simp [checkpointEvent, h, dataOf, record, Lua.get, Lua.lookup,
      Lua.isNil, Lua.isTable, array]
  show stringItems ((dataOf (checkpointEvent s beat)).get "missing") = s.missing
  rw [hmissing]
  split
  · next hempty => exact (List.isEmpty_iff.mp hempty).symm
  · show (s.missing.map Lua.str).filterMap Lua.asStr = s.missing
    rw [List.filterMap_map]
    exact List.filterMap_some

end Event

/-! ### One reading of the targets -/

theorem mem_setField {fields : List (String × Lua)} {key : String} {v : Lua} {f : String × Lua}
    (h : f ∈ Lua.setField fields key v) : f = (key, v) ∨ f ∈ fields := by
  induction fields with
  | nil => exact Or.inl (List.mem_singleton.mp h)
  | cons g rest ih =>
      obtain ⟨k, u⟩ := g
      rw [Lua.setField] at h
      split at h
      · next hk =>
        obtain rfl | h := List.mem_cons.mp h
        · exact Or.inl (by rw [hk])
        · exact Or.inr (List.mem_cons_of_mem _ h)
      · obtain rfl | h := List.mem_cons.mp h
        · exact Or.inr List.mem_cons_self
        · exact (ih h).imp id (List.mem_cons_of_mem _)

theorem keys_setField (fields : List (String × Lua)) (key : String) (v : Lua) :
    (Lua.setField fields key v).map Prod.fst =
      if key ∈ fields.map Prod.fst then fields.map Prod.fst else fields.map Prod.fst ++ [key] := by
  induction fields with
  | nil => rfl
  | cons g rest ih =>
      obtain ⟨k, u⟩ := g
      rw [Lua.setField]
      by_cases hk : k = key
      · simp [hk]
      · rw [if_neg hk, List.map_cons, ih]
        have hne : ¬ key = k := fun h => hk h.symm
        by_cases hmem : key ∈ rest.map Prod.fst
        · rw [if_pos hmem, List.map_cons, if_pos (List.mem_cons_of_mem _ hmem)]
        · rw [if_neg hmem, List.map_cons, if_neg (by simpa [hne] using hmem)]
          rfl

/-- What a reading of these targets comes to, where a log held these versions. -/
structure Swept (versionOf : String → String) (disk : Disk) (held : List String)
    (targets : List String) (s : Sweep) : Prop where
  files : ∀ f ∈ s.files, f.1 ∈ targets ∧
    ∃ content, disk f.1 = some content ∧ f.2 = .str (versionOf content)
  all : ∀ path ∈ targets, disk path ≠ none → path ∈ s.files.map Prod.fst
  keys : (s.files.map Prod.fst).Nodup
  missing : s.missing = targets.filter fun path => (disk path).isNone
  have_ : s.have_ = (s.blobs.map Prod.fst).reverse ++ held
  blobs : ∀ b ∈ s.blobs, ∃ path content, disk path = some content ∧
    b = (versionOf content, content)
  stored : ∀ path ∈ targets, ∀ content, disk path = some content → versionOf content ∈ s.have_
  fresh : (s.blobs.map Prod.fst).Nodup ∧ ∀ v ∈ s.blobs.map Prod.fst, v ∉ held

section Sweep

variable {disk : Disk} {known targets : List String} {s : Sweep}

theorem Swept.init : Swept versionOf disk known [] { have_ := known } where
  files := nofun
  all := nofun
  keys := List.nodup_nil
  missing := rfl
  have_ := rfl
  blobs := nofun
  stored := nofun
  fresh := ⟨List.nodup_nil, nofun⟩

/-- **One target more.** -/
theorem Swept.target (h : Swept versionOf disk known targets s) (path : String) :
    Swept versionOf disk known (targets ++ [path]) (s.target versionOf disk path) := by
  rw [Sweep.target]
  cases hread : disk path with
  | none =>
      -- no such file: the target is added to the missing ones, and nothing else changes
      refine ⟨fun f hf => ?_, fun p hp hd => ?_, h.keys, ?_, h.have_, h.blobs, fun p hp c hc => ?_,
        h.fresh⟩
      · exact ⟨List.mem_append_left _ (h.files f hf).1, (h.files f hf).2⟩
      · obtain hp | hp := List.mem_append.mp hp
        · exact h.all p hp hd
        · obtain rfl := List.mem_singleton.mp hp
          exact absurd hread hd
      · rw [List.filter_append, h.missing]
        simp [hread]
      · obtain hp | hp := List.mem_append.mp hp
        · exact h.stored p hp c hc
        · obtain rfl := List.mem_singleton.mp hp
          rw [hread] at hc
          cases hc
  | some content =>
      have hkeys := keys_setField s.files path (.str (versionOf content))
      have hfiles : ∀ f ∈ Lua.setField s.files path (.str (versionOf content)),
          f.1 ∈ targets ++ [path] ∧
            ∃ content, disk f.1 = some content ∧ f.2 = .str (versionOf content) := by
        intro f hf
        obtain rfl | hf := mem_setField hf
        · exact ⟨by simp, content, hread, rfl⟩
        · exact ⟨List.mem_append_left _ (h.files f hf).1, (h.files f hf).2⟩
      have hall : ∀ p ∈ targets ++ [path], disk p ≠ none →
          p ∈ (Lua.setField s.files path (.str (versionOf content))).map Prod.fst := by
        intro p hp hd
        rw [hkeys]
        obtain hp | hp := List.mem_append.mp hp
        · have hold := h.all p hp hd
          split
          · exact hold
          · exact List.mem_append_left _ hold
        · obtain rfl := List.mem_singleton.mp hp
          split
          · assumption
          · simp
      have hnodup :
          ((Lua.setField s.files path (.str (versionOf content))).map Prod.fst).Nodup := by
        rw [hkeys]
        split
        · exact h.keys
        · next hnew =>
          rw [← List.concat_eq_append]
          exact h.keys.concat hnew
      have hmissing : s.missing = (targets ++ [path]).filter fun p => (disk p).isNone := by
        rw [List.filter_append, h.missing]
        simp [hread]
      have hstored : ∀ have_ : List String, (∀ v ∈ s.have_, v ∈ have_) → versionOf content ∈ have_ →
          ∀ p ∈ targets ++ [path], ∀ c, disk p = some c → versionOf c ∈ have_ := by
        intro have_ hsub hnew p hp c hc
        obtain hp | hp := List.mem_append.mp hp
        · exact hsub _ (h.stored p hp c hc)
        · obtain rfl := List.mem_singleton.mp hp
          obtain rfl := Option.some.inj (hread.symm.trans hc)
          exact hnew
      show Swept versionOf disk known (targets ++ [path])
        (if versionOf content ∈ s.have_ then _ else _)
      split
      · next hheld =>
        -- the version is known or stored already, so no blob is added
        exact ⟨hfiles, hall, hnodup, hmissing, h.have_, h.blobs, hstored _ (fun v hv => hv) hheld,
          h.fresh⟩
      · next hnew =>
        have hparts : versionOf content ∉ s.blobs.map Prod.fst ∧ versionOf content ∉ known := by
          rw [h.have_] at hnew
          simpa using hnew
        refine ⟨hfiles, hall, hnodup, hmissing, ?_, ?_, ?_, ?_, ?_⟩
        · simp [h.have_]
        · intro b hb
          obtain hb | hb := List.mem_append.mp hb
          · exact h.blobs b hb
          · obtain rfl := List.mem_singleton.mp hb
            exact ⟨path, content, hread, rfl⟩
        · exact hstored _ (fun v hv => List.mem_cons_of_mem _ hv) List.mem_cons_self
        · simp only [List.map_append, List.map_cons, List.map_nil]
          rw [← List.concat_eq_append]
          exact h.fresh.1.concat hparts.1
        · intro v hv
          simp only [List.map_append, List.map_cons, List.map_nil] at hv
          obtain hv | hv := List.mem_append.mp hv
          · exact h.fresh.2 v hv
          · obtain rfl := List.mem_singleton.mp hv
            exact hparts.2

theorem sweep_swept (versionOf : String → String) (disk : Disk) (targets known : List String) :
    Swept versionOf disk known targets (sweep versionOf disk targets known) := by
  induction targets using List.reverseRecOn with
  | nil => exact Swept.init
  | append_singleton targets path ih =>
      rw [sweep, List.foldl_append]
      exact ih.target path

end Sweep

/-! ### The log of a run -/

section Record

variable {disk : Disk} {targets : List String} {beat : Option String} {events : List Lua}

theorem mem_recordedVersions {version : String} :
    version ∈ recordedVersions events ↔ ∃ ev ∈ events, isKind BLOB_KIND ev = true ∧
      (dataOf ev).get "version" = .str version := by
  rw [recordedVersions, List.mem_filterMap]
  refine exists_congr fun ev => and_congr_right fun _ => ?_
  cases isKind BLOB_KIND ev with
  | false => exact iff_of_false nofun fun h => nomatch h.1
  | true =>
      rw [if_pos rfl]
      cases (dataOf ev).get "version" <;> simp [Lua.asStr]

theorem version_of_blobOf {ev : Lua} {version content : String}
    (h : blobOf ev = some (version, content)) : (dataOf ev).get "version" = .str version := by
  rw [blobOf, if_pos (isKind_of_blobOf h)] at h
  split at h
  · next hversion _ =>
    cases h
    exact hversion
  · cases h

/-- What a run appends for a state: contents, and then the state. -/
theorem mem_recordCheckpoint {ev : Lua}
    (h : ev ∈ recordCheckpoint versionOf targets events disk beat) :
    (∃ path content, disk path = some content ∧
      ev = checkpointBlob (versionOf content) content) ∨
    ev = checkpointEvent (sweep versionOf disk targets (recordedVersions events)) beat := by
  obtain h | h := List.mem_append.mp h
  · obtain ⟨b, hb, rfl⟩ := List.mem_map.mp h
    obtain ⟨path, content, hread, rfl⟩ := (sweep_swept versionOf disk targets _).blobs b hb
    exact Or.inl ⟨path, content, hread, rfl⟩
  · exact Or.inr (List.mem_singleton.mp h)

theorem honest_recordCheckpoint (hread : ∀ path content, disk path = some content →
    content ∈ held) :
    Honest versionOf held (recordCheckpoint versionOf targets events disk beat) := by
  intro ev hev hkind
  obtain ⟨path, content, hpath, rfl⟩ | rfl := mem_recordCheckpoint hev
  · exact ⟨content, hread path content hpath, blobOf_checkpointBlob ..⟩
  · exact absurd hkind nofun

/-- **Every version a state names has its content before it.** -/
theorem content_before (hinj : Set.InjOn versionOf held) (hhonest : Honest versionOf held events)
    (hread : ∀ path content, disk path = some content → content ∈ held) (read : ℕ)
    {path content : String} (hpath : path ∈ targets) (hcontent : disk path = some content) :
    ∃ ev ∈ events ++ (sweep versionOf disk targets (recordedVersions (events.take read))).blobs.map
      (fun b => checkpointBlob b.1 b.2), blobOf ev = some (versionOf content, content) := by
  have hswept := sweep_swept versionOf disk targets (recordedVersions (events.take read))
  have hheld := hread path content hcontent
  have hstored := hswept.stored path hpath content hcontent
  rw [hswept.have_] at hstored
  obtain hnew | hold := List.mem_append.mp hstored
  · obtain ⟨b, hb, hversion⟩ := List.mem_map.mp (List.mem_reverse.mp hnew)
    obtain ⟨path', content', hread', rfl⟩ := hswept.blobs b hb
    obtain rfl : content' = content := hinj (hread path' content' hread') hheld hversion
    exact ⟨_, List.mem_append_right _ (List.mem_map_of_mem hb), blobOf_checkpointBlob ..⟩
  · obtain ⟨ev, hev, hkind, hversion⟩ := mem_recordedVersions.mp hold
    have hev : ev ∈ events := List.mem_of_mem_take hev
    obtain ⟨content', hheld', hblob⟩ := hhonest ev hev hkind
    have hsame : versionOf content' = versionOf content :=
      Lua.str.inj ((version_of_blobOf hblob).symm.trans hversion)
    obtain rfl : content' = content := hinj hheld' hheld hsame
    exact ⟨ev, List.mem_append_left _ hev, hblob⟩

/-- **A content that the log read holds is not appended**, and none is twice. -/
theorem content_once (hhonest : Honest versionOf held events) {read : ℕ}
    (hwhole : events.length ≤ read) :
    ((sweep versionOf disk targets (recordedVersions (events.take read))).blobs.map
      Prod.snd).Nodup ∧
    ∀ b ∈ (sweep versionOf disk targets (recordedVersions (events.take read))).blobs,
      ∀ ev ∈ events, ∀ version, blobOf ev ≠ some (version, b.2) := by
  have hswept := sweep_swept versionOf disk targets (recordedVersions (events.take read))
  obtain ⟨hnodup, hfresh⟩ := hswept.fresh
  refine ⟨?_, fun b hb ev hev version hblob => ?_⟩
  · have hversions : (sweep versionOf disk targets (recordedVersions (events.take read))).blobs.map
        Prod.fst = ((sweep versionOf disk targets (recordedVersions (events.take read))).blobs.map
        Prod.snd).map versionOf := by
      rw [List.map_map]
      refine List.map_congr_left fun b hb => ?_
      obtain ⟨path, content, -, rfl⟩ := hswept.blobs b hb
      rfl
    rw [hversions] at hnodup
    exact hnodup.of_map
  · obtain ⟨path, content, hcontent, rfl⟩ := hswept.blobs b hb
    refine hfresh _ (List.mem_map_of_mem hb) ?_
    rw [List.take_of_length_le hwhole, mem_recordedVersions]
    obtain ⟨rfl, -⟩ := hhonest.blob hev hblob
    exact ⟨ev, hev, isKind_of_blobOf hblob, version_of_blobOf hblob⟩

end Record

section Play

variable {targets : List String}

theorem play_append (log : List Lua) (ms more : List Move) :
    play versionOf targets log (ms ++ more) =
      play versionOf targets (play versionOf targets log ms) more := by
  induction ms generalizing log with
  | nil => rfl
  | cons m ms ih =>
      cases m with
      | other ev => exact ih _
      | record beat disk read => exact ih _

/-- What a run appends by some of its moves. -/
structure Added (versionOf : String → String) (held : Set String) (ms : List Move)
    (events : List Lua) : Prop where
  honest : Honest versionOf held events
  labels : ∀ ev ∈ events, isKind CHECKPOINT_KIND ev = true →
    ∃ label ∈ ms.filterMap Move.label, (pointOf ev).beat = .str label
  noConfig : ∀ ev ∈ events, configRepo ev = none

/-- **What a run has appended stays in its log**, and it appends as it should. -/
theorem play_adds (log : List Lua) {ms : List Move} (hplain : ∀ ev, .other ev ∈ ms → Plain ev)
    (hreads : ∀ beat disk read, .record beat disk read ∈ ms → ∀ path content,
      disk path = some content → content ∈ held) :
    ∃ events, play versionOf targets log ms = log ++ events ∧ Added versionOf held ms events := by
  induction ms generalizing log with
  | nil => exact ⟨[], (List.append_nil log).symm, nofun, nofun, nofun⟩
  | cons m ms ih =>
      have hplain' : ∀ ev, .other ev ∈ ms → Plain ev :=
        fun ev hev => hplain ev (List.mem_cons_of_mem _ hev)
      have hreads' : ∀ beat disk read, .record beat disk read ∈ ms → ∀ path content,
          disk path = some content → content ∈ held :=
        fun beat disk read hm => hreads beat disk read (List.mem_cons_of_mem _ hm)
      cases m with
      | other ev =>
          -- an event of another kind is neither a blob nor a checkpoint nor a config
          obtain ⟨events, hplay, hadded⟩ := ih (log ++ [ev]) hplain' hreads'
          obtain ⟨hcheck, hblob, hconfig⟩ := hplain ev List.mem_cons_self
          refine ⟨ev :: events, ?_, ?_, ?_, ?_⟩
          · rw [play, hplay, List.append_assoc]
            rfl
          · intro e he hkind
            obtain rfl | he := List.mem_cons.mp he
            · exact absurd (hblob.symm.trans hkind) nofun
            · exact hadded.honest e he hkind
          · intro e he hkind
            obtain rfl | he := List.mem_cons.mp he
            · exact absurd (hcheck.symm.trans hkind) nofun
            · exact hadded.labels e he hkind
          · exact List.forall_mem_cons.mpr ⟨hconfig, hadded.noConfig⟩
      | record beat disk read =>
          obtain ⟨events, hplay, hadded⟩ := ih
            -- a record appends its blobs and then the checkpoint that names them
            (log ++ recordCheckpoint versionOf targets (log.take read) disk beat) hplain' hreads'
          refine ⟨recordCheckpoint versionOf targets (log.take read) disk beat ++ events,
            ?_, ?_, ?_, ?_⟩
          · rw [play, hplay, List.append_assoc]
          · exact (honest_recordCheckpoint (hreads beat disk read List.mem_cons_self)).append
              hadded.honest
          · intro e he hkind
            obtain he | he := List.mem_append.mp he
            · obtain ⟨path, content, -, rfl⟩ | rfl := mem_recordCheckpoint he
              · exact absurd hkind nofun
              · exact ⟨_, List.mem_cons_self, followed_checkpointEvent ..⟩
            · obtain ⟨label, hlabel, hbeat⟩ := hadded.labels e he hkind
              exact ⟨label, List.mem_cons_of_mem _ hlabel, hbeat⟩
          · intro e he
            obtain he | he := List.mem_append.mp he
            · obtain ⟨path, content, -, rfl⟩ | rfl := mem_recordCheckpoint he
              · rfl
              · rfl
            · exact hadded.noConfig e he

end Play

/-! ### A recorded state, read back -/

/-- The files of a state with their contents: the targets that could be read. -/
structure Resolved (targets : List String) (disk : Disk) (files : List (String × String)) :
    Prop where
  mem : ∀ path content, (path, content) ∈ files ↔ path ∈ targets ∧ disk path = some content
  keys : (files.map Prod.fst).Nodup

theorem stringFields_keys {items : List Lua} {fields : List (String × Lua)}
    (h : ∀ f ∈ fields, ∃ s, f.2 = .str s) :
    (stringFields (.table items fields)).map Prod.fst = fields.map Prod.fst := by
  show (fields.filterMap fun f => f.2.asStr.map fun s => (f.1, s)).map Prod.fst = _
  induction fields with
  | nil => rfl
  | cons f fields ih =>
      obtain ⟨⟨s, hs⟩, hrest⟩ := List.forall_mem_cons.mp h
      rw [List.filterMap_cons_some (b := (f.1, s)) (by rw [hs]; rfl), List.map_cons, ih hrest]
      rfl

theorem mem_stringFields {items : List Lua} {fields : List (String × Lua)} {key s : String} :
    (key, s) ∈ stringFields (.table items fields) ↔ (key, .str s) ∈ fields := by
  show (key, s) ∈ fields.filterMap (fun f => f.2.asStr.map fun s => (f.1, s)) ↔ _
  rw [List.mem_filterMap]
  constructor
  · rintro ⟨⟨k, v⟩, hf, h⟩
    obtain ⟨s', hs', h⟩ := Option.map_eq_some_iff.mp h
    cases h
    cases v <;> cases hs'
    exact hf
  · exact fun h => ⟨_, h, rfl⟩

theorem Swept.resolved {disk : Disk} {known targets : List String} {s : Sweep}
    (h : Swept versionOf disk known targets s) :
    Resolved targets disk ((stringFields (.table [] s.files)).map fun file =>
      (file.1, (disk file.1).getD "")) := by
  have hstr : ∀ f ∈ s.files, ∃ text, f.2 = .str text := fun f hf => by
    obtain ⟨-, content, -, hv⟩ := h.files f hf
    exact ⟨_, hv⟩
  refine ⟨fun path content => ⟨fun hmem => ?_, fun ⟨hpath, hread⟩ => ?_⟩, ?_⟩
  · obtain ⟨⟨key, version⟩, hfile, heq⟩ := List.mem_map.mp hmem
    cases heq
    obtain ⟨htarget, content, hread, -⟩ := h.files _ (mem_stringFields.mp hfile)
    refine ⟨htarget, ?_⟩
    rw [hread]
    rfl
  · obtain ⟨⟨key, v⟩, hf, rfl⟩ :=
      List.mem_map.mp (h.all path hpath (by rw [hread]; exact nofun))
    obtain ⟨-, content', hread', hv⟩ := h.files _ hf
    obtain rfl : v = .str (versionOf content') := hv
    exact List.mem_map.mpr ⟨_, mem_stringFields.mpr hf, by simp [hread]⟩
  · rw [List.map_map]
    show ((stringFields (.table [] s.files)).map Prod.fst).Nodup
    rw [stringFields_keys hstr]
    exact h.keys

section Read

variable {r : Run} {before after : List Move} {beat : Option String} {disk : Disk} {read : ℕ}

/-- The log when a state is recorded. -/
def Run.logAt (versionOf : String → String) (r : Run) (before : List Move) : List Lua :=
  play versionOf r.targets (r.history ++ [r.config]) before

theorem Run.Sound.start_honest (hr : r.Sound versionOf held) :
    Honest versionOf held (r.history ++ [r.config]) := by
  refine hr.history.append fun ev hev hkind => ?_
  obtain rfl := List.mem_singleton.mp hev
  have hconfig := hr.config
  rw [configRepo] at hconfig
  split at hconfig
  · next h =>
    have hone : r.config.get "kind" = .str "config" := Lua.eq_str.mp h
    have htwo : r.config.get "kind" = .str BLOB_KIND := Lua.eq_str.mp hkind
    exact absurd (Lua.str.inj (hone.symm.trans htwo)) (by decide)
  · cases hconfig

theorem Run.Sound.logAt_honest (hr : r.Sound versionOf held)
    (hm : r.moves = before ++ .record beat disk read :: after) :
    Honest versionOf held (r.logAt versionOf before) := by
  obtain ⟨events, hplay, hadded⟩ := play_adds (r.history ++ [r.config])
    (fun ev hev => hr.plain ev (by rw [hm]; exact List.mem_append_left _ hev))
    (fun b d n hmove => hr.reads b d n (by rw [hm]; exact List.mem_append_left _ hmove))
  rw [Run.logAt, hplay]
  exact hr.start_honest.append hadded.honest

/-- The log around a record of a state. -/
theorem Run.Sound.log_split (hr : r.Sound versionOf held)
    (hm : r.moves = before ++ .record beat disk read :: after) :
    ∃ events, r.log versionOf = r.logAt versionOf before ++
        recordCheckpoint versionOf r.targets ((r.logAt versionOf before).take read) disk beat ++
        events ∧ Added versionOf held after events := by
  obtain ⟨events, hplay, hadded⟩ := play_adds (r.logAt versionOf before ++
      recordCheckpoint versionOf r.targets ((r.logAt versionOf before).take read) disk beat)
    (fun ev hev => hr.plain ev (by
      rw [hm]
      exact List.mem_append_right _ (List.mem_cons_of_mem _ hev)))
    (fun b d n hmove => hr.reads b d n (by
      rw [hm]
      exact List.mem_append_right _ (List.mem_cons_of_mem _ hmove)))
  refine ⟨events, ?_, hadded⟩
  rw [Run.log, hm, play_append, play, ← Run.logAt, hplay]

/-- **A recorded state is read back as it was.** -/
theorem Run.Sound.checkpointAt_record (hr : r.Sound versionOf held)
    (hm : r.moves = before ++ .record beat disk read :: after) :
    ∃ files, checkpointAt (r.log versionOf) (beat.getD BASELINE) = .ok (some {
        beat := beat.getD BASELINE, files
        missing := r.targets.filter fun path => (disk path).isNone }) ∧
      Resolved r.targets disk files := by
  obtain ⟨events, hlog, hadded⟩ := hr.log_split hm
  have hhonest := hr.logAt_honest hm
  have hread : ∀ path content, disk path = some content → content ∈ held :=
    hr.reads beat disk read (by rw [hm]; simp)
  let s := sweep versionOf disk r.targets (recordedVersions ((r.logAt versionOf before).take read))
  have hswept : Swept versionOf disk _ r.targets s := sweep_swept versionOf disk r.targets _
  have hlog' : r.log versionOf =
      (r.logAt versionOf before ++ s.blobs.map fun b => checkpointBlob b.1 b.2) ++
        checkpointEvent s beat :: events := by
    rw [hlog, recordCheckpoint, ← List.append_assoc, List.append_assoc]
    rfl
  have hall : Honest versionOf held (r.log versionOf) := by
    rw [hlog]
    exact (hhonest.append (honest_recordCheckpoint hread)).append hadded.honest
  -- no later state is of this beat
  have hlater : ∀ e ∈ events, isKind CHECKPOINT_KIND e = true →
      (pointOf e).beat ≠ .str (beat.getD BASELINE) := by
    intro e he hkind hbeat
    obtain ⟨label, hlabel, hown⟩ := hadded.labels e he hkind
    obtain rfl := Label.str.inj (hown.symm.trans hbeat)
    have hnodup := hr.beats
    rw [hm, List.filterMap_append, List.filterMap_cons_some (by rfl)] at hnodup
    exact (List.nodup_cons.mp (List.nodup_append.mp hnodup).2.1).1 hlabel
  let contentOf : String → String := fun path => (disk path).getD ""
  have hfiles : ∀ file ∈ (pointOf (checkpointEvent s beat)).files,
      (reading (beat.getD BASELINE) (r.log versionOf)).contents file.2 =
        some (contentOf file.1) := by
    rintro ⟨path, version⟩ hfile
    have hfile : (path, version) ∈ stringFields (.table [] s.files) := hfile
    obtain ⟨htarget, content, hcontent, hversion⟩ := hswept.files _ (mem_stringFields.mp hfile)
    obtain rfl := Lua.str.inj hversion
    obtain ⟨ev, hev, hblob⟩ := content_before hr.distinct hhonest hread read htarget hcontent
    have hown : contentOf path = content := by
      show (disk path).getD "" = content
      rw [hcontent]
      rfl
    rw [hown]
    refine hall.contents hr.distinct ?_ hblob
    rw [hlog']
    exact List.mem_append_left _ hev
  refine ⟨_, ?_, hswept.resolved⟩
  rw [hlog'] at hfiles ⊢
  rw [checkpointAt_latest (isKind_checkpointEvent s beat) (followed_checkpointEvent s beat) hlater
    hfiles, missing_checkpointEvent, hswept.missing]
  rfl

/-- The repo that a run's log names is its own. -/
theorem Run.Sound.recordedRepo (hr : r.Sound versionOf held) :
    Coding.recordedRepo (r.log versionOf) = some (trimSlashes r.repo) := by
  obtain ⟨events, hplay, hadded⟩ := play_adds (r.history ++ [r.config]) hr.plain hr.reads
  have hlast : ∀ (events : List Lua) (found : Option String),
      (∀ ev ∈ events, configRepo ev = none) →
      events.foldl (fun found ev => (configRepo ev).or found) found = found := by
    intro events found hnone
    induction events generalizing found with
    | nil => rfl
    | cons ev events ih =>
        obtain ⟨hev, hrest⟩ := List.forall_mem_cons.mp hnone
        rw [List.foldl_cons, hev, ih _ hrest]
        rfl
  rw [Run.log, hplay, Coding.recordedRepo, List.foldl_append, hlast _ _ hadded.noConfig,
    List.foldl_append, List.foldl_cons, hr.config]
  rfl

end Read

/-! ### What is written -/

section Write

theorem isPrefixOf?_eq_some {α : Type} [BEq α] [LawfulBEq α] {xs ys rest : List α} :
    xs.isPrefixOf? ys = some rest ↔ ys = xs ++ rest := by
  induction xs generalizing ys with
  | nil => simp [List.isPrefixOf?, eq_comm]
  | cons x xs ih =>
      cases ys with
      | nil => simp [List.isPrefixOf?]
      | cons y ys =>
          rw [List.isPrefixOf?]
          by_cases hxy : x = y
          · simp [hxy, ih]
          · simp [hxy, Ne.symm hxy]

/-- A path is under a directory where it is what it is called there. -/
theorem underRepo_eq_some {dir path rest : String} :
    underRepo dir path = some rest ↔ path = dir ++ "/" ++ rest := by
  rw [underRepo, Option.map_eq_some_iff]
  constructor
  · rintro ⟨cs, hcs, rfl⟩
    rw [← String.toList_inj, String.toList_append, isPrefixOf?_eq_some.mp hcs]
    simp
  · rintro rfl
    refine ⟨rest.toList, isPrefixOf?_eq_some.mpr ?_, by simp⟩
    simp

variable {reroot : Option (String × String)} {files : List (String × String)}
variable {place : String → String}

theorem writeFiles_ok (h : ∀ f ∈ files, placed reroot f.1 = .ok (place f.1)) :
    writeFiles reroot files =
      (files.map fun f => (place f.1, f.2), .ok (files.map fun f => place f.1)) := by
  induction files with
  | nil => rfl
  | cons f files ih =>
      obtain ⟨hf, hrest⟩ := List.forall_mem_cons.mp h
      obtain ⟨path, content⟩ := f
      rw [writeFiles, hf]
      simp only [ih hrest]
      rfl

theorem writeFiles_error {f : String × String} {e : Lua} (hf : f ∈ files)
    (hplaced : placed reroot f.1 = .error e) : ∃ e', (writeFiles reroot files).2 = .error e' := by
  induction files with
  | nil => cases hf
  | cons g files ih =>
      obtain ⟨path, content⟩ := g
      rw [writeFiles]
      cases hg : placed reroot path with
      | error e' => exact ⟨e', rfl⟩
      | ok target =>
          obtain rfl | hf := List.mem_cons.mp hf
          · rw [hplaced] at hg
            cases hg
          · obtain ⟨e', he'⟩ := ih hf
            exact ⟨e', by simp only [he']; rfl⟩

theorem laid_of_not_mem {writes : List (String × String)} {path : String} (disk : Disk)
    (hnot : path ∉ writes.map Prod.fst) : laid disk writes path = disk path := by
  induction writes generalizing disk with
  | nil => rfl
  | cons w writes ih =>
      obtain ⟨hw, hrest⟩ := not_or.mp (mt List.mem_cons.mpr hnot)
      exact (ih _ hrest).trans (Function.update_of_ne hw _ _)

/-- The files after some writes, at a path that was written once. -/
theorem laid_of_mem {writes : List (String × String)} {path content : String} (disk : Disk)
    (hkeys : (writes.map Prod.fst).Nodup) (hmem : (path, content) ∈ writes) :
    laid disk writes path = some content := by
  induction writes generalizing disk with
  | nil => cases hmem
  | cons w writes ih =>
      obtain ⟨hnew, hrest⟩ := List.nodup_cons.mp hkeys
      obtain rfl | hmem := List.mem_cons.mp hmem
      · exact (laid_of_not_mem _ hnew).trans (Function.update_self ..)
      · exact ih _ hrest hmem

theorem mem_byPath {f : String × String} : f ∈ byPath files ↔ f ∈ files := List.mem_mergeSort

end Write

/-- What a restore of a state comes to: each target that was readable has its
content again at its place, the targets that were not are named, and nothing else
is written. -/
structure Restores (targets : List String) (then_ : Disk) (place : String → String)
    (out : List (String × String) × Except Lua Restored) : Prop where
  answers : ∃ r, out.2 = .ok r ∧
    r.missing = (targets.filter fun path => (then_ path).isNone).map place ∧
    ∀ q, q ∈ r.restored ↔ ∃ path ∈ targets, then_ path ≠ none ∧ place path = q
  content : ∀ now : Disk, ∀ path ∈ targets, ∀ content, then_ path = some content →
    laid now out.1 (place path) = some content
  nothingElse : ∀ (now : Disk) (q : String),
    (∀ path ∈ targets, then_ path ≠ none → place path ≠ q) → laid now out.1 q = now q

section Restore

variable {targets : List String} {then_ : Disk} {place : String → String} {state : FileState}
variable {reroot : Option (String × String)}

theorem restoreState_ok (hfiles : ∀ f ∈ state.files, placed reroot f.1 = .ok (place f.1))
    (hmissing : ∀ path ∈ state.missing, placed reroot path = .ok (place path)) :
    restoreState state reroot = ((byPath state.files).map fun f => (place f.1, f.2),
      .ok {
        restored := (byPath state.files).map fun f => place f.1
        missing := state.missing.map place }) := by
  rw [restoreState, writeFiles_ok fun f hf => hfiles f (mem_byPath.mp hf)]
  simp only [Except.mapM_eq_ok hmissing]
  rfl

/-- **A state whose paths all have a place is restored.** -/
theorem Resolved.restores (hres : Resolved targets then_ state.files)
    (hmissing : state.missing = targets.filter fun path => (then_ path).isNone)
    (hplaced : ∀ path ∈ targets, placed reroot path = .ok (place path))
    (hinj : ∀ path ∈ targets, ∀ path' ∈ targets, place path = place path' → path = path') :
    Restores targets then_ place (restoreState state reroot) := by
  have htarget : ∀ f ∈ state.files, f.1 ∈ targets :=
    fun f hf => ((hres.mem f.1 f.2).mp hf).1
  rw [restoreState_ok (fun f hf => hplaced f.1 (htarget f hf)) fun path hpath => by
    rw [hmissing] at hpath
    exact hplaced path (List.mem_of_mem_filter hpath)]
  have hkeys : (((byPath state.files).map fun f => (place f.1, f.2)).map Prod.fst).Nodup := by
    have hpaths : ((byPath state.files).map Prod.fst).Nodup :=
      ((List.mergeSort_perm state.files _).map Prod.fst).nodup_iff.mpr hres.keys
    rw [List.map_map]
    show ((byPath state.files).map (place ∘ Prod.fst)).Nodup
    rw [← List.map_map]
    refine List.Nodup.map_on (fun p hp q hq h => ?_) hpaths
    obtain ⟨f, hf, rfl⟩ := List.mem_map.mp hp
    obtain ⟨g, hg, rfl⟩ := List.mem_map.mp hq
    exact hinj _ (htarget f (mem_byPath.mp hf)) _ (htarget g (mem_byPath.mp hg)) h
  refine ⟨⟨_, rfl, by rw [hmissing], fun q => ?_⟩, fun now path hpath content hcontent => ?_,
    fun now q hq => ?_⟩
  · constructor
    · intro hmem
      obtain ⟨f, hf, rfl⟩ := List.mem_map.mp hmem
      obtain ⟨hpath, hcontent⟩ := (hres.mem f.1 f.2).mp (mem_byPath.mp hf)
      exact ⟨f.1, hpath, by rw [hcontent]; exact nofun, rfl⟩
    · rintro ⟨path, hpath, hsome, rfl⟩
      obtain ⟨content, hcontent⟩ := Option.ne_none_iff_exists'.mp hsome
      exact List.mem_map.mpr ⟨(path, content),
        mem_byPath.mpr ((hres.mem path content).mpr ⟨hpath, hcontent⟩), rfl⟩
  · refine laid_of_mem now hkeys (List.mem_map.mpr ⟨(path, content), ?_, rfl⟩)
    exact mem_byPath.mpr ((hres.mem path content).mpr ⟨hpath, hcontent⟩)
  · refine laid_of_not_mem now fun hmem => ?_
    obtain ⟨w, hw, rfl⟩ := List.mem_map.mp hmem
    obtain ⟨f, hf, rfl⟩ := List.mem_map.mp hw
    obtain ⟨hpath, hcontent⟩ := (hres.mem f.1 f.2).mp (mem_byPath.mp hf)
    exact hq f.1 hpath (by rw [hcontent]; exact nofun) rfl

end Restore

/-! ### The refusals -/

/-- A restore that refuses has written no file. -/
def RefusesClean (events : List Lua) (beat : String) (repo : Option String) : Prop :=
  ∀ e, (restore events beat repo).2 = .error e → (restore events beat repo).1 = []

/-- A state that is written under a directory has every path of it, read or
missing, under the repo it was recorded in, or its first path is not. -/
def RefusedFirst (events : List Lua) (beat : String) (repo : Option String) : Prop :=
  ∀ state dir into, beat ≠ "" → into ≠ "" → repo = some into →
    checkpointAt events beat = .ok (some state) → recordedRepo events = some dir →
    ((∀ f ∈ state.files, underRepo dir f.1 ≠ none) ∧
      ∀ path ∈ state.missing, underRepo dir path ≠ none) ∨
    ∀ f rest, byPath state.files = f :: rest → underRepo dir f.1 = none

section Refusal

variable {state : FileState} {dir into : String}

theorem placed_ok {path rest : String} (h : underRepo dir path = some rest) :
    placed (some (dir, into)) path = .ok (into ++ "/" ++ rest) := by
  rw [placed, h]

theorem placed_error {path : String} (h : underRepo dir path = none) :
    ∃ e, placed (some (dir, into)) path = .error e := by
  rw [placed, h]
  exact ⟨_, rfl⟩

theorem mapM_error {f : String → Except Lua String} {path : String} {e : Lua}
    (hf : f path = .error e) {paths : List String} (hmem : path ∈ paths) :
    ∃ e', paths.mapM f = .error e' := by
  induction paths with
  | nil => cases hmem
  | cons p paths ih =>
      rw [List.mapM_cons]
      cases hp : f p with
      | error e' => exact ⟨e', rfl⟩
      | ok q =>
          obtain rfl | hmem := List.mem_cons.mp hmem
          · rw [hf] at hp
            cases hp
          · obtain ⟨e', he'⟩ := ih hmem
            exact ⟨e', by rw [he']; rfl⟩

/-- A restore under a directory, of a state that the log holds. -/
theorem restore_under {events : List Lua} {beat : String}
    (hbeat : beat ≠ "") (hinto : into ≠ "") (hstate : checkpointAt events beat = .ok (some state))
    (hdir : recordedRepo events = some dir) :
    restore events beat (some into) = restoreState state (some (dir, trimSlashes into)) := by
  rw [restore, if_neg hbeat, if_neg (by simpa using hinto), hstate]
  simp only [hdir]

/-- A path that has no place is refused, sooner or later. -/
theorem restoreState_error (h : ¬ ((∀ f ∈ state.files, underRepo dir f.1 ≠ none) ∧
    ∀ path ∈ state.missing, underRepo dir path ≠ none)) :
    ∃ e, (restoreState state (some (dir, into))).2 = .error e := by
  rw [restoreState]
  by_cases hfiles : ∀ f ∈ state.files, underRepo dir f.1 ≠ none
  · have hmissing : ¬ ∀ path ∈ state.missing, underRepo dir path ≠ none := fun hm => h ⟨hfiles, hm⟩
    push Not at hmissing
    obtain ⟨path, hpath, hnone⟩ := hmissing
    obtain ⟨e, he⟩ := @placed_error dir into _ hnone
    obtain ⟨e', he'⟩ := mapM_error he hpath
    cases hw : (writeFiles (some (dir, into)) (byPath state.files)).2 with
    | error e'' => exact ⟨e'', by simp only [hw]; rfl⟩
    | ok targets => exact ⟨e', by simp only [hw, he']; rfl⟩
  · push Not at hfiles
    obtain ⟨f, hf, hnone⟩ := hfiles
    obtain ⟨e, he⟩ := @placed_error dir into _ hnone
    obtain ⟨e', he'⟩ := writeFiles_error (mem_byPath.mpr hf) he
    exact ⟨e', by simp only [he']; rfl⟩

/-- Nothing is written just where the first path has no place. -/
theorem restoreState_writes_nil : (restoreState state (some (dir, into))).1 = [] ↔
    ∀ f rest, byPath state.files = f :: rest → underRepo dir f.1 = none := by
  show (writeFiles (some (dir, into)) (byPath state.files)).1 = [] ↔ _
  cases byPath state.files with
  | nil => exact iff_of_true rfl nofun
  | cons f rest =>
      obtain ⟨path, content⟩ := f
      rw [writeFiles]
      cases hu : underRepo dir path with
      | none =>
          obtain ⟨e, he⟩ := @placed_error dir into _ hu
          rw [he]
          refine ⟨fun _ f rest h => ?_, fun _ => rfl⟩
          cases h
          exact hu
      | some inner =>
          rw [placed_ok hu]
          refine iff_of_false nofun fun h => ?_
          rw [h _ _ rfl] at hu
          cases hu

theorem restoreState_answers
    (h : (∀ f ∈ state.files, underRepo dir f.1 ≠ none) ∧
      ∀ path ∈ state.missing, underRepo dir path ≠ none) :
    ∃ r, (restoreState state (some (dir, into))).2 = .ok r := by
  have hplaced : ∀ path, underRepo dir path ≠ none → placed (some (dir, into)) path =
      .ok (into ++ "/" ++ (underRepo dir path).getD "") := by
    intro path hsome
    obtain ⟨rest, hrest⟩ := Option.ne_none_iff_exists'.mp hsome
    rw [placed_ok hrest, hrest]
    rfl
  rw [restoreState_ok (fun f hf => hplaced f.1 (h.1 f hf))
    fun path hpath => hplaced path (h.2 path hpath)]
  exact ⟨_, rfl⟩

/-- **A refusal has written nothing** exactly where it comes first. -/
theorem refusesClean_iff (events : List Lua) (beat : String) (repo : Option String) :
    RefusesClean events beat repo ↔ RefusedFirst events beat repo := by
  constructor
  · rintro hclean state dir into hbeat hinto rfl hstate hdir
    have hrestore := restore_under hbeat hinto hstate hdir
    by_cases hall : (∀ f ∈ state.files, underRepo dir f.1 ≠ none) ∧
        ∀ path ∈ state.missing, underRepo dir path ≠ none
    · exact Or.inl hall
    · right
      -- some path has no place, so restoring raises, and has written nothing by then
      obtain ⟨e, he⟩ := @restoreState_error state dir (trimSlashes into) hall
      have hnil := hclean e (by rw [hrestore]; exact he)
      rw [hrestore] at hnil
      exact restoreState_writes_nil.mp hnil
  · intro hfirst e he
    rw [restore] at he ⊢
    split_ifs at he ⊢ with hbeat hrepo
    · rfl
    · rfl
    · cases hstate : checkpointAt events beat with
      | error e' => rfl
      | ok found =>
          cases found with
          | none => rfl
          | some state =>
              rw [hstate] at he
              cases repo with
              | none =>
                  have he : (restoreState state none).2 = .error e := he
                  -- without a repository every path is its own place
                  rw [@restoreState_ok id state none (fun _ _ => rfl) fun _ _ => rfl] at he
                  cases he
              | some into =>
                  cases hdir : recordedRepo events with
                  | none => rfl
                  | some dir =>
                      simp only [hdir] at he ⊢
                      obtain hall | hnone := hfirst state dir into hbeat (by simpa using hrepo) rfl
                        hstate hdir
                      · obtain ⟨r, hr⟩ := @restoreState_answers state dir (trimSlashes into) hall
                        rw [hr] at he
                        cases he
                      · exact restoreState_writes_nil.mpr hnone

end Refusal

/-! ### What was recorded is what is restored -/

/-- What a record of a state adds to a log: every content it names is there before
the state, and of those that the log holds already, where it was read whole, none
is added again. -/
structure Kept (versionOf : String → String) (targets : List String) (log : List Lua)
    (disk : Disk) (read : ℕ) (blobs : List (String × String)) : Prop where
  before : ∀ path ∈ targets, ∀ content, disk path = some content →
    ∃ ev ∈ log ++ blobs.map (fun b => checkpointBlob b.1 b.2),
      blobOf ev = some (versionOf content, content)
  once : log.length ≤ read → (blobs.map Prod.snd).Nodup ∧
    ∀ b ∈ blobs, ∀ ev ∈ log, ∀ version, blobOf ev ≠ some (version, b.2)

/-- The same path under another directory. -/
def placeUnder (dir into path : String) : String := into ++ "/" ++ (underRepo dir path).getD ""

/-- What a run's record of a state is good for. -/
structure AsRecorded (versionOf : String → String) (r : Run) (before : List Move)
    (beat : Option String) (disk : Disk) (read : ℕ) : Prop where
  kept : ∃ s : Sweep,
    recordCheckpoint versionOf r.targets ((r.logAt versionOf before).take read) disk beat =
      s.blobs.map (fun b => checkpointBlob b.1 b.2) ++ [checkpointEvent s beat] ∧
    Kept versionOf r.targets (r.logAt versionOf before) disk read s.blobs
  inPlace : Restores r.targets disk id
    (restore (r.log versionOf) (beat.getD BASELINE) none)
  elsewhere : ∀ into, into ≠ "" →
    (∀ path ∈ r.targets, underRepo (trimSlashes r.repo) path ≠ none) →
    Restores r.targets disk (placeUnder (trimSlashes r.repo) (trimSlashes into))
      (restore (r.log versionOf) (beat.getD BASELINE) (some into))

section AsRecorded

variable {r : Run} {before after : List Move} {beat : Option String} {disk : Disk} {read : ℕ}

theorem Run.Sound.label_ne (hr : r.Sound versionOf held)
    (hm : r.moves = before ++ .record beat disk read :: after) : beat.getD BASELINE ≠ "" := by
  refine hr.minted _ ?_
  rw [hm, List.filterMap_append, List.filterMap_cons_some (by rfl)]
  exact List.mem_append_right _ List.mem_cons_self

theorem Run.Sound.asRecorded (hr : r.Sound versionOf held)
    (hm : r.moves = before ++ .record beat disk read :: after) :
    AsRecorded versionOf r before beat disk read := by
  have hread : ∀ path content, disk path = some content → content ∈ held :=
    hr.reads beat disk read (by rw [hm]; simp)
  have hhonest := hr.logAt_honest hm
  obtain ⟨files, hstate, hres⟩ := hr.checkpointAt_record hm
  have hbeat := hr.label_ne hm
  refine ⟨⟨_, rfl, ?_, fun hwhole => content_once hhonest hwhole⟩, ?_, fun into hinto hunder => ?_⟩
  · exact fun path hpath content hcontent =>
      content_before hr.distinct hhonest hread read hpath hcontent
  · rw [restore, if_neg hbeat, if_neg nofun, hstate]
    exact hres.restores rfl (fun _ _ => rfl) fun _ _ _ _ h => h
  · rw [restore_under hbeat hinto hstate hr.recordedRepo]
    refine hres.restores rfl (fun path hpath => ?_) fun path hpath path' hpath' h => ?_
    · obtain ⟨rest, hrest⟩ := Option.ne_none_iff_exists'.mp (hunder path hpath)
      rw [placed_ok hrest, placeUnder, hrest]
      rfl
    · obtain ⟨rest, hrest⟩ := Option.ne_none_iff_exists'.mp (hunder path hpath)
      obtain ⟨rest', hrest'⟩ := Option.ne_none_iff_exists'.mp (hunder path' hpath')
      rw [placeUnder, placeUnder, hrest, hrest', ← String.toList_inj] at h
      simp only [String.toList_append, Option.getD_some] at h
      have hsame : rest = rest' := String.toList_inj.mp (List.append_cancel_left h)
      rw [underRepo_eq_some.mp hrest, underRepo_eq_some.mp hrest', hsame]

/-- A target that is named by a path of its own is under the repo, at that path. -/
theorem underRepo_targetOf {repo item path : String} (h : targetOf repo item = some path)
    (hown : (trimmed item).toList.head? ≠ some '/') :
    underRepo repo path = some (trimmed item) := by
  rw [targetOf] at h
  split_ifs at h
  exact underRepo_eq_some.mpr (Option.some.inj h).symm

end AsRecorded

/-- Two files: one in the repo and one beside it. -/
def twoFiles : Disk := fun path =>
  if path = "/r/a" then some "one" else if path = "/s/b" then some "two" else none

/-- A run in `/r`, over these targets. -/
def runIn (targets : List String) (moves : List Move) : Run where
  repo := "/r/"
  named := .array targets
  targets
  history := []
  config := record [("kind", .str "config"),
    ("data", record [("values", record [("repo", record [("value", .str "/r")])])])]
  moves

theorem repo_runIn (targets : List String) (moves : List Move) :
    trimSlashes (runIn targets moves).repo = "/r" := by
  show trimSlashes "/r/" = "/r"
  decide

theorem sound_runIn {targets : List String} {moves : List Move} (hne : targets ≠ [])
    (h : targets.filterMap (targetOf "/r") = targets) (hplain : ∀ ev, .other ev ∈ moves → Plain ev)
    (hbeats : (moves.filterMap Move.label).Nodup)
    (hminted : ∀ label ∈ moves.filterMap Move.label, label ≠ "") :
    (runIn targets moves).Sound id Set.univ where
  distinct := Function.injective_id.injOn
  history := nofun
  config := by
    rw [repo_runIn]
    rfl
  named := by
    rw [repo_runIn, Coding.targets, show trimSlashes "/r" = "/r" by decide]
    show (if (targets.filterMap (targetOf "/r")).isEmpty then _ else _) = _
    rw [h, if_neg (by simpa using hne)]
    exact congrArg Except.ok h
  plain := hplain
  reads := fun _ _ _ _ _ _ _ => Set.mem_univ _
  beats := hbeats
  minted := hminted

/-- A run that recorded its targets once, before its first beat. -/
def once (targets : List String) : Run := runIn targets [.record none twoFiles 1000]

theorem once_sound {targets : List String} (hne : targets ≠ [])
    (h : targets.filterMap (targetOf "/r") = targets) : (once targets).Sound id Set.univ := by
  refine sound_runIn hne h (fun ev hev => by simp at hev) (List.nodup_singleton _) ?_
  intro label hlabel
  obtain rfl := List.mem_singleton.mp hlabel
  decide

/-- The one file after a beat, and the other still not there. -/
def edited : Disk := fun path => if path = "/r/a" then some "uno" else none

/-- A run of two targets, one of which is not there, that recorded them before its
first beat and after it. -/
def twice : Run :=
  runIn ["/r/a", "/r/b"] [.record none twoFiles 1000,
    .other (record [("kind", .str "tool_call")]), .record (some "b1") edited 1000]

theorem twice_sound : twice.Sound id Set.univ := by
  refine sound_runIn (by decide) (by decide) (fun ev hev => ?_) (by decide) (by decide)
  have hev' : ev = record [("kind", .str "tool_call")] := by simpa using hev
  rw [hev']
  exact ⟨rfl, rfl, rfl⟩

end AgentBlock.Coding
