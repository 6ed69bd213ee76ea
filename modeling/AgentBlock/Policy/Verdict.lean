/-
AgentBlock/Policy/Verdict.lean

The seconds a check may take, read off the log.

A check is recorded right after it was made, so what it took is the gap between
its record and the one before it.  A measure picks one of these readings, and the
next check is given so many times that, held between two bounds; until there is a
reading it is given the upper one.  Seconds are exact rationals.

A session begins with the records it found when it began to check: a fork copies
those of another session, each stamped when it was copied.

Main results:

* `Timeout.seconds_le`, `le_seconds` — the bounds;
* `Longest.grows` — the longest reading never shrinks;
* `seconds_from_own_checks` — every session, just where the copied records hold no
  reading of the measure.
-/
import Mathlib.Algebra.Order.Ring.Rat
import Mathlib.Data.List.Chain
import Mathlib.Data.List.Induction
import Mathlib.Order.MinMax
import Mathlib.Tactic.Linarith

namespace AgentBlock.Policy.Verdict

def DEFAULT_VERDICT_KIND : String := "verify"

/-! ### The checks of a log -/

/-- What the record of a check says, where the record has data: a field is not
there where it is not of its type. -/
structure Data where
  ok : Option Bool
  ran : Option Bool
  timeoutS : Option ℚ

/-- A record, with its stamp. -/
structure Event where
  kind : String
  epochMs : Option Int
  data : Option Data := none

/-- A check in the log: what it took, and for one that was cut off the seconds it
was given. -/
structure Check where
  seconds : ℚ
  ok : Bool
  ran : Bool
  timeoutS : Option ℚ

/-- The check that a record is, behind the record before it.  Without a stamp on
either it measures nothing. -/
def checkOf (kind : String) (prev ev : Event) : Option Check :=
  if ev.kind = kind then
    match ev.data, ev.epochMs, prev.epochMs with
    | some data, some at_, some before =>
        if before ≤ at_ then
          some {
            seconds := ((at_ - before : Int) : ℚ) / 1000
            ok := data.ok = some true
            ran := data.ran ≠ some false
            timeoutS := data.timeoutS }
        else none
    | _, _, _ => none
  else none

def checksOf (kind : String) : List Event → List Check
  | prev :: ev :: rest => (checkOf kind prev ev).toList ++ checksOf kind (ev :: rest)
  | _ => []

/-! ### The measures -/

/-- The measures that have a name. -/
inductive Measure where
  | last
  | lastOk
  | longest
  | first
  deriving DecidableEq

/-- What a check counts for the longest reading. -/
def Check.reading (c : Check) : Option ℚ := if c.ran then some c.seconds else c.timeoutS

/-- The longer of a reading and what another check counts. -/
def longer (taken : Option ℚ) (c : Check) : Option ℚ :=
  match c.reading with
  | none => taken
  | some reading =>
      match taken with
      | none => some reading
      | some t => if reading > t then some reading else some t

def Measure.read : Measure → List Check → Option ℚ
  | .last => List.foldl (fun taken c => if c.ran then some c.seconds else taken) none
  | .lastOk => List.foldl (fun taken c => if c.ran && c.ok then some c.seconds else taken) none
  | .longest => List.foldl longer none
  | .first => fun checks => (checks.find? Check.ran).map Check.seconds

/-- `timeout = { first, factor, floor, measure }`.  The numbers are finite here; the
validation, which only refuses what is not above 0, lets infinity and NaN pass. -/
structure Timeout where
  first : ℚ
  factor : ℚ
  floor : ℚ
  measure : Measure
  first_pos : 0 < first
  factor_pos : 0 < factor
  floor_pos : 0 < floor

/-- So many times a reading, held between the bounds. -/
def Timeout.held (t : Timeout) (taken : ℚ) : ℚ :=
  let timeout := taken * t.factor
  let timeout := if timeout < t.floor then t.floor else timeout
  if timeout > t.first then t.first else timeout

/-- The seconds that the next check is given. -/
def Timeout.seconds (t : Timeout) (kind : String) (events : List Event) : ℚ :=
  match t.measure.read (checksOf kind events) with
  | some taken => t.held taken
  | none => t.first

/-! ### A verdict -/

/-- What a check answered. -/
structure Result where
  ok : Bool
  ran : Option Bool

/-- What a verdict answers. -/
structure Answer where
  ok : Bool
  checked : Bool
  ran : Bool
  changed : Option Bool
  reason : Option String

/-- The answer on a result, and on whether anything was changed, where that is
asked. -/
def answerOf (result : Result) (changed : Option Bool) : Answer :=
  let ran := result.ran ≠ some false
  if !result.ok then ⟨false, true, ran, none, none⟩
  else
    match changed with
    | none => ⟨true, true, ran, none, none⟩
    | some true => ⟨true, true, ran, some true, none⟩
    | some false => ⟨false, true, ran, some false, some "unchanged"⟩

/-- The record of a check. -/
def checkEvent (kind : String) (seconds : ℚ) (result : Result) (epochMs : Int) : Event where
  kind := kind
  epochMs := some epochMs
  data := some {
    ok := some result.ok
    ran := some (result.ran ≠ some false)
    timeoutS := some seconds }

/-! ### A session that checks -/

/-- What happens in a session: a record that is no check's, or a check, with what
it answered and when it was recorded. -/
inductive Move where
  | other (ev : Event)
  | check (result : Result) (changed : Option Bool) (epochMs : Int)

/-- A check that was made: the log it was given its seconds by, the seconds and
the answer. -/
structure Made where
  log : List Event
  seconds : ℚ
  result : Result
  answer : Answer

/-- The checks of a session.  A log that one read does not hold is refused, which
ends it. -/
def play (t : Timeout) (kind : String) (limit : ℕ) : List Event → List Move → List Made
  | _, [] => []
  | log, .other ev :: rest => play t kind limit (log ++ [ev]) rest
  | log, .check result changed epochMs :: rest =>
      if log.length ≤ limit then
        let seconds := t.seconds kind log
        ⟨log, seconds, result, answerOf result changed⟩ ::
          play t kind limit (log ++ [checkEvent kind seconds result epochMs]) rest
      else []

def Move.stamp : Move → Option Int
  | .other ev => ev.epochMs
  | .check _ _ epochMs => some epochMs

/-- A session: what is in its log when its own part begins, and its own part. -/
structure Session where
  found : List Event
  moves : List Move

/-- Every record is stamped, no stamp is less than the one before it, and the
session appends its checks and no others.  There is the record of its opening. -/
structure Session.Sound (kind : String) (s : Session) : Prop where
  opened : s.found ≠ []
  stamped : ∃ stamps : List Int, s.found.map Event.epochMs ++ s.moves.map Move.stamp =
    stamps.map some ∧ stamps.Pairwise (· ≤ ·)
  own : ∀ ev, .other ev ∈ s.moves → ev.kind ≠ kind

/-- The checks that a session made. -/
def Session.made (s : Session) (t : Timeout) (kind : String) (limit : ℕ) : List Made :=
  play t kind limit s.found s.moves

/-- The checks of a log that the session ran itself: those recorded behind what it
found. -/
def ownChecks (kind : String) (found log : List Event) : List Check :=
  checksOf kind (log.drop (found.length - 1))

/-! ### The bounds -/

section Bounds

variable {t : Timeout} {taken taken' : ℚ}

theorem Timeout.held_eq (t : Timeout) (taken : ℚ) :
    t.held taken = min t.first (max t.floor (taken * t.factor)) := by
  show (if (if taken * t.factor < t.floor then t.floor else taken * t.factor) > t.first
    then t.first else _) = _
  have hmax : (if taken * t.factor < t.floor then t.floor else taken * t.factor) =
      max t.floor (taken * t.factor) := by
    split
    · next h => exact (max_eq_left h.le).symm
    · next h => exact (max_eq_right (not_lt.mp h)).symm
  rw [hmax]
  split
  · next h => exact (min_eq_left (le_of_lt h)).symm
  · next h => exact (min_eq_right (not_lt.mp h)).symm

theorem Timeout.held_mono (h : taken ≤ taken') : t.held taken ≤ t.held taken' := by
  rw [held_eq, held_eq]
  have hfactor : taken * t.factor ≤ taken' * t.factor :=
    mul_le_mul_of_nonneg_right h t.factor_pos.le
  exact min_le_min_left _ (max_le_max_left _ hfactor)

theorem Timeout.min_le_held (h : taken ≤ taken') :
    min t.first (taken * t.factor) ≤ t.held taken' := by
  rw [held_eq]
  have hfactor : taken * t.factor ≤ taken' * t.factor :=
    mul_le_mul_of_nonneg_right h t.factor_pos.le
  exact min_le_min_left _ (hfactor.trans (le_max_right _ _))

theorem Timeout.seconds_le (t : Timeout) (kind : String) (events : List Event) :
    t.seconds kind events ≤ t.first := by
  rw [seconds]
  split
  · rw [held_eq]
    exact min_le_left _ _
  · exact le_rfl

theorem Timeout.le_seconds (hfloor : t.floor ≤ t.first) (kind : String) (events : List Event) :
    t.floor ≤ t.seconds kind events := by
  rw [seconds]
  split
  · rw [held_eq]
    exact le_min hfloor (le_max_left _ _)
  · exact hfloor

end Bounds

/-! ### The readings of a log that grows -/

section Readings

variable {kind : String} {cs ds : List Check}

/-- A measure that reads nothing of the first checks reads what it reads of the
others. -/
theorem Measure.read_append {m : Measure} (h : m.read cs = none) :
    m.read (cs ++ ds) = m.read ds := by
  cases m with
  | last | lastOk | longest =>
      simp only [read, List.foldl_append] at h ⊢
      rw [h]
  | first =>
      simp only [read, Option.map_eq_none_iff, List.find?_append] at h ⊢
      rw [h]
      rfl

theorem Measure.read_nil (m : Measure) : m.read [] = none := by
  cases m <;> rfl

theorem checksOf_split (pre : List Event) (p : Event) (rest : List Event) :
    checksOf kind (pre ++ p :: rest) = checksOf kind (pre ++ [p]) ++ checksOf kind (p :: rest) := by
  induction pre with
  | nil => rfl
  | cons x pre ih =>
      cases pre with
      | nil =>
          show (checkOf kind x p).toList ++ checksOf kind (p :: rest) =
            ((checkOf kind x p).toList ++ []) ++ _
          rw [List.append_nil]
      | cons y pre =>
          show (checkOf kind x y).toList ++ checksOf kind (y :: pre ++ p :: rest) =
            ((checkOf kind x y).toList ++ checksOf kind (y :: pre ++ [p])) ++ _
          rw [List.append_assoc, ← ih]

theorem checksOf_own (found own : List Event) (h : found ≠ []) :
    checksOf kind (found ++ own) = checksOf kind found ++ ownChecks kind found (found ++ own) := by
  obtain ⟨pre, p, rfl⟩ := List.eq_nil_or_concat found |>.resolve_left h
  rw [List.concat_eq_append]
  have hdrop : (pre ++ [p] ++ own).drop ((pre ++ [p]).length - 1) = p :: own := by
    simp
  rw [ownChecks, hdrop, List.append_assoc]
  exact checksOf_split pre p own

/-- Records of other kinds are no checks. -/
theorem checksOf_others (p : Event) {others : List Event} (h : ∀ ev ∈ others, ev.kind ≠ kind) :
    checksOf kind (p :: others) = [] := by
  induction others generalizing p with
  | nil => rfl
  | cons ev others ih =>
      obtain ⟨hev, hrest⟩ := List.forall_mem_cons.mp h
      show (checkOf kind p ev).toList ++ checksOf kind (ev :: others) = []
      rw [ih ev hrest, checkOf, if_neg hev]
      rfl

/-- **The longest reading** is no less than it was, nor than what one more check
counts. -/
theorem Longest.grows {c : Check} {reading : ℚ} (hc : c.reading = some reading) :
    ∃ taken, Measure.longest.read (cs ++ [c]) = some taken ∧ reading ≤ taken ∧
      ∀ before, Measure.longest.read cs = some before → before ≤ taken := by
  have hread : Measure.longest.read (cs ++ [c]) = longer (Measure.longest.read cs) c := by
    simp [Measure.read, List.foldl_append]
  rw [hread, longer, hc]
  cases Measure.longest.read cs with
  | none => exact ⟨reading, rfl, le_rfl, nofun⟩
  | some t =>
      show ∃ taken, (if reading > t then some reading else some t) = some taken ∧ _
      split
      · next h =>
        refine ⟨reading, rfl, le_rfl, fun before hb => ?_⟩
        obtain rfl := Option.some.inj hb
        exact h.le
      · next h =>
        refine ⟨t, rfl, not_lt.mp h, fun before hb => ?_⟩
        obtain rfl := Option.some.inj hb
        exact le_rfl

end Readings

/-! ### A session -/

section Sessions

variable {t : Timeout} {kind : String} {limit : ℕ} {log : List Event} {ms : List Move}

/-- The log so far and what is still to happen are stamped in their order. -/
def Stamped (log : List Event) (ms : List Move) : Prop :=
  log ≠ [] ∧ ∃ stamps : List Int, log.map Event.epochMs ++ ms.map Move.stamp = stamps.map some ∧
    stamps.Pairwise (· ≤ ·)

theorem Stamped.next {m : Move} {ev : Event} (h : Stamped log (m :: ms))
    (hev : ev.epochMs = m.stamp) : Stamped (log ++ [ev]) ms := by
  obtain ⟨hne, stamps, hstamps, hsorted⟩ := h
  refine ⟨by simp, stamps, ?_, hsorted⟩
  rw [← hstamps]
  simp [hev]

/-- **The next check of a session** is given its seconds by the log so far and by
records that are no checks. -/
theorem play_first {made : Made} {rest : List Made} (hown : ∀ ev, .other ev ∈ ms → ev.kind ≠ kind)
    (h : play t kind limit log ms = made :: rest) :
    (∃ others : List Event, made.log = log ++ others ∧ ∀ ev ∈ others, ev.kind ≠ kind) ∧
      made.seconds = t.seconds kind made.log := by
  induction ms generalizing log with
  | nil => cases h
  | cons m ms ih =>
      have hrest : ∀ ev, .other ev ∈ ms → ev.kind ≠ kind :=
        fun ev hev => hown ev (List.mem_cons_of_mem _ hev)
      cases m with
      | other ev =>
          obtain ⟨⟨others, hlog, hothers⟩, hseconds⟩ := ih hrest h
          refine ⟨⟨ev :: others, ?_, ?_⟩, hseconds⟩
          · rw [hlog, List.append_assoc]
            rfl
          · exact List.forall_mem_cons.mpr ⟨hown ev List.mem_cons_self, hothers⟩
      | check result changed epochMs =>
          rw [play] at h
          split at h
          · cases h
            exact ⟨⟨[], (List.append_nil log).symm, nofun⟩, rfl⟩
          · cases h

/-- A check that was just made is one of the checks, and records of other kinds
are none. -/
theorem checksOf_made {result : Result} {changed : Option Bool} {epochMs : Int} (seconds : ℚ)
    (hstamped : Stamped log (.check result changed epochMs :: ms)) {others : List Event}
    (hothers : ∀ ev ∈ others, ev.kind ≠ kind) :
    ∃ c : Check, c.ran = (result.ran ≠ some false : Bool) ∧ c.timeoutS = some seconds ∧
      checksOf kind (log ++ checkEvent kind seconds result epochMs :: others) =
        checksOf kind log ++ [c] := by
  obtain ⟨hne, stamps, hstamps, hsorted⟩ := hstamped
  obtain ⟨pre, p, rfl⟩ := List.eq_nil_or_concat log |>.resolve_left hne
  rw [List.concat_eq_append] at hstamps ⊢
  -- the record before the check is stamped, and no later than it
  obtain ⟨front, back, rfl, hfront, hback⟩ := List.map_eq_append_iff.mp hstamps.symm
  rw [List.map_append] at hfront
  obtain ⟨init, last, rfl, -, hlast⟩ := List.map_eq_append_iff.mp hfront
  obtain ⟨before, rest, rfl, hbefore, hrest⟩ := List.map_eq_cons_iff.mp hlast
  obtain rfl : rest = [] := List.map_eq_nil_iff.mp hrest
  obtain ⟨at_, after, rfl, hat, -⟩ := List.map_eq_cons_iff.mp hback
  obtain rfl : at_ = epochMs := Option.some.inj hat
  have hle : before ≤ at_ :=
    (List.pairwise_append.mp hsorted).2.2 before (by simp) at_ List.mem_cons_self
  let c : Check := ⟨((at_ - before : Int) : ℚ) / 1000, result.ok, result.ran ≠ some false,
    some seconds⟩
  have hcheck : checkOf kind p (checkEvent kind seconds result at_) = some c := by
    simp [checkOf, checkEvent, ← hbefore, hle, c]
  refine ⟨c, rfl, rfl, ?_⟩
  rw [List.append_assoc]
  refine (checksOf_split pre p _).trans ?_
  show _ ++ ((checkOf kind p (checkEvent kind seconds result at_)).toList ++
    checksOf kind (checkEvent kind seconds result at_ :: others)) = _
  rw [hcheck, checksOf_others _ hothers]
  rfl

/-- How the next check follows the one before it. -/
def Follows (kind : String) (m m' : Made) : Prop :=
  ∃ c : Check, c.ran = (m.result.ran ≠ some false : Bool) ∧ c.timeoutS = some m.seconds ∧
    checksOf kind m'.log = checksOf kind m.log ++ [c]

/-- **The checks of a session**, one after the other. -/
theorem play_follows (hown : ∀ ev, .other ev ∈ ms → ev.kind ≠ kind) (hstamped : Stamped log ms) :
    (play t kind limit log ms).IsChain (Follows kind) := by
  induction ms generalizing log with
  | nil => exact List.IsChain.nil
  | cons m ms ih =>
      have hrest : ∀ ev, .other ev ∈ ms → ev.kind ≠ kind :=
        fun ev hev => hown ev (List.mem_cons_of_mem _ hev)
      cases m with
      | other ev => exact ih hrest (hstamped.next rfl)
      | check result changed epochMs =>
          rw [play]
          split
          · have hafter : Stamped
                (log ++ [checkEvent kind (t.seconds kind log) result epochMs]) ms :=
              hstamped.next rfl
            have hnext := ih hrest hafter
            refine List.isChain_cons.mpr ⟨fun m' hm' => ?_, hnext⟩
            obtain ⟨rest, hplay⟩ := List.head?_eq_some_iff.mp hm'
            obtain ⟨⟨others, hlog, hothers⟩, -⟩ := play_first hrest hplay
            obtain ⟨c, hran, htimeout, hchecks⟩ :=
              checksOf_made (t.seconds kind log) hstamped hothers
            refine ⟨c, hran, htimeout, ?_⟩
            rw [hlog, List.append_assoc]
            exact hchecks
          · exact List.IsChain.nil

/-- Every check is given its seconds by a log that the session found and went on
with. -/
theorem play_log {made : Made} (hmade : made ∈ play t kind limit log ms) :
    (∃ own, made.log = log ++ own) ∧ made.seconds = t.seconds kind made.log := by
  induction ms generalizing log with
  | nil => cases hmade
  | cons m ms ih =>
      cases m with
      | other ev =>
          obtain ⟨⟨own, hlog⟩, hseconds⟩ := ih hmade
          exact ⟨⟨ev :: own, by rw [hlog, List.append_assoc]; rfl⟩, hseconds⟩
      | check result changed epochMs =>
          rw [play] at hmade
          split at hmade
          · obtain rfl | hmade := List.mem_cons.mp hmade
            · exact ⟨⟨[], (List.append_nil log).symm⟩, rfl⟩
            · obtain ⟨⟨own, hlog⟩, hseconds⟩ := ih hmade
              exact ⟨⟨_ :: own, by rw [hlog, List.append_assoc]; rfl⟩, hseconds⟩
          · cases hmade

/-- After a check the longest reading is there, and the next check is given at
least what this one was, and what its seconds make where it was cut off. -/
theorem Follows.longest {m m' : Made} (h : Follows kind m m') (ht : t.measure = .longest)
    (hm : m.seconds = t.seconds kind m.log) (hm' : m'.seconds = t.seconds kind m'.log) :
    Measure.longest.read (checksOf kind m'.log) ≠ none ∧
      (Measure.longest.read (checksOf kind m.log) ≠ none → m.seconds ≤ m'.seconds) ∧
      (m.result.ran = some false → min t.first (m.seconds * t.factor) ≤ m'.seconds) := by
  obtain ⟨c, hran, htimeout, hchecks⟩ := h
  obtain ⟨reading, hreading⟩ : ∃ reading, c.reading = some reading := by
    rw [Check.reading, htimeout]
    split
    · exact ⟨_, rfl⟩
    · exact ⟨_, rfl⟩
  obtain ⟨taken, htaken, hle, hbefore⟩ := @Longest.grows (checksOf kind m.log) c reading hreading
  rw [hchecks, htaken]
  have hseconds : m'.seconds = t.held taken := by
    rw [hm', Timeout.seconds, ht, hchecks, htaken]
  refine ⟨nofun, fun hsome => ?_, fun hcut => ?_⟩
  · obtain ⟨before, hb⟩ := Option.ne_none_iff_exists'.mp hsome
    have hgiven : m.seconds = t.held before := by
      rw [hm, Timeout.seconds, ht, hb]
    rw [hgiven, hseconds]
    exact Timeout.held_mono (hbefore before hb)
  · have hown : reading = m.seconds := by
      rw [Check.reading, hran, hcut, htimeout] at hreading
      exact (Option.some.inj hreading).symm
    rw [hseconds]
    exact Timeout.min_le_held (hown ▸ hle)

/-- A session that, with so many records in its log, comes to a check while one read
holds them. -/
def Checks (limit : ℕ) : ℕ → List Move → Prop
  | _, [] => False
  | n, .other _ :: rest => Checks limit (n + 1) rest
  | n, .check .. :: _ => n ≤ limit

theorem play_ne_nil_iff : play t kind limit log ms ≠ [] ↔ Checks limit log.length ms := by
  induction ms generalizing log with
  | nil => exact iff_of_false (fun h => h rfl) id
  | cons m ms ih =>
      cases m with
      | other ev =>
          rw [play, ih, List.length_append]
          rfl
      | check result changed epochMs =>
          rw [play]
          split
          · next h => exact iff_of_true nofun h
          · next h => exact iff_of_false (fun hne => hne rfl) h

end Sessions

/-- What the seconds of a session's checks are from. -/
structure FromOwnChecks (t : Timeout) (kind : String) (found : List Event) (made : List Made) :
    Prop where
  firstGiven : ∀ m, made.head? = some m → m.seconds = t.first
  bounds : ∀ m ∈ made.tail, t.floor ≤ m.seconds ∧ m.seconds ≤ t.first
  own : ∀ m ∈ made, t.measure.read (checksOf kind m.log) =
    t.measure.read (ownChecks kind found m.log)
  grows : t.measure = .longest → (made.tail.map Made.seconds).Pairwise (· ≤ ·)
  cutOff : t.measure = .longest → ∀ before m m' after, made = before ++ m :: m' :: after →
    m.result.ran = some false → min t.first (m.seconds * t.factor) ≤ m'.seconds

section FromOwnChecks

variable {t : Timeout} {kind : String} {limit : ℕ} {s : Session}

/-- From the second check on the longest reading is there. -/
theorem longest_grows (ht : t.measure = .longest) {made : List Made}
    (hchain : made.IsChain (Follows kind))
    (hseconds : ∀ m ∈ made, m.seconds = t.seconds kind m.log) :
    (made.tail.map Made.seconds).Pairwise (· ≤ ·) := by
  rw [List.pairwise_map]
  refine List.IsChain.pairwise ?_
  cases made with
  | nil => exact List.IsChain.nil
  | cons m made =>
      -- by induction on the later checks: each has a reading, and so has the next
      show made.IsChain _
      induction made generalizing m with
      | nil => exact List.IsChain.nil
      | cons m' made ih =>
          obtain ⟨hfollows, hrest⟩ := List.isChain_cons_cons.mp hchain
          have htail := List.forall_mem_cons.mp hseconds
          obtain ⟨hhead, hlater⟩ := List.forall_mem_cons.mp htail.2
          obtain ⟨hsome, -, -⟩ := hfollows.longest ht htail.1 hhead
          refine List.isChain_cons.mpr ⟨fun m'' hm'' => ?_, ih m' hrest htail.2⟩
          obtain ⟨rest, rfl⟩ := List.head?_eq_some_iff.mp hm''
          obtain ⟨hnext, -⟩ := List.isChain_cons_cons.mp hrest
          exact (hnext.longest ht hhead (hlater m'' List.mem_cons_self)).2.1 hsome

/-- **The seconds of a check come from checks the session made**, in every session
that makes one just where the records it found hold no reading of the measure. -/
theorem seconds_from_own_checks (hfloor : t.floor ≤ t.first) (hs : s.Sound kind) :
    FromOwnChecks t kind s.found (s.made t kind limit) ↔
      (Checks limit s.found.length s.moves → t.measure.read (checksOf kind s.found) = none) := by
  have hstamped : Stamped s.found s.moves := ⟨hs.opened, hs.stamped⟩
  have hchain : (s.made t kind limit).IsChain (Follows kind) := play_follows hs.own hstamped
  have hseconds : ∀ m ∈ s.made t kind limit, m.seconds = t.seconds kind m.log :=
    fun m hm => (play_log hm).2
  constructor
  · intro h hchecks
    obtain ⟨m, rest, hmade⟩ := List.exists_cons_of_ne_nil (play_ne_nil_iff.mpr hchecks)
    obtain ⟨⟨others, hlog, hothers⟩, -⟩ := play_first hs.own hmade
    have hown := h.own m (by rw [Session.made, hmade]; exact List.mem_cons_self)
    -- the first check is given its seconds before the session made any
    have hnone : ownChecks kind s.found (s.found ++ others) = [] := by
      obtain ⟨pre, p, hfound⟩ := List.eq_nil_or_concat s.found |>.resolve_left hs.opened
      rw [List.concat_eq_append] at hfound
      have hdrop : (s.found ++ others).drop (s.found.length - 1) = p :: others := by
        rw [hfound]
        simp
      rw [ownChecks, hdrop]
      exact checksOf_others p hothers
    rw [hlog, checksOf_own s.found others hs.opened, hnone, List.append_nil,
      Measure.read_nil] at hown
    exact hown
  · intro h
    by_cases hmade : s.made t kind limit = []
    · rw [hmade]
      constructor
      · intro m hm
        cases hm
      · exact fun m hm => absurd hm List.not_mem_nil
      · exact fun m hm => absurd hm List.not_mem_nil
      · exact fun _ => List.Pairwise.nil
      · intro _ before m m' after heq
        simp at heq
    have hfound := h (play_ne_nil_iff.mp hmade)
    have hown : ∀ m ∈ s.made t kind limit, t.measure.read (checksOf kind m.log) =
        t.measure.read (ownChecks kind s.found m.log) := by
      intro m hm
      obtain ⟨⟨own, hlog⟩, -⟩ := play_log hm
      rw [hlog, checksOf_own s.found own hs.opened]
      exact Measure.read_append hfound
    refine ⟨fun m hm => ?_, fun m hm => ?_, hown, fun ht => longest_grows ht hchain hseconds,
      fun ht before m m' after heq hcut => ?_⟩
    · obtain ⟨rest, hplay⟩ := List.head?_eq_some_iff.mp hm
      obtain ⟨⟨others, hlog, hothers⟩, hm⟩ := play_first hs.own hplay
      obtain ⟨pre, p, hlast⟩ := List.eq_nil_or_concat s.found |>.resolve_left hs.opened
      rw [List.concat_eq_append] at hlast
      have hchecks : checksOf kind m.log = checksOf kind s.found := by
        rw [hlog, hlast, List.append_assoc]
        show checksOf kind (pre ++ p :: others) = _
        rw [checksOf_split, checksOf_others p hothers, List.append_nil]
      rw [hm, Timeout.seconds, hchecks, hfound]
    · have hm := hseconds m (List.mem_of_mem_tail hm)
      rw [hm]
      exact ⟨Timeout.le_seconds hfloor kind _, Timeout.seconds_le t kind _⟩
    · have hmem : ∀ x ∈ [m, m'], x ∈ s.made t kind limit := by
        intro x hx
        rw [heq]
        obtain rfl | hx := List.mem_cons.mp hx
        · simp
        · obtain rfl := List.mem_singleton.mp hx
          simp
      rw [heq] at hchain
      have hfollows : Follows kind m m' := by
        have hpair := (List.isChain_append.mp hchain).2.1
        exact (List.isChain_cons_cons.mp hpair).1
      exact (hfollows.longest ht (hseconds m (hmem m (by simp)))
        (hseconds m' (hmem m' (by simp)))).2.2 hcut

end FromOwnChecks

/-! ### On a session -/

def tenMinutes : Timeout :=
  ⟨600, 3, 60, .longest, by norm_num, by norm_num, by norm_num⟩

def opened : Event := { kind := "session_opened", epochMs := some 0 }

/-- A check that answered, and that is cut off. -/
def green : Result := ⟨true, none⟩
def cut : Result := ⟨false, some false⟩

/-- A run that checks what it found, works, and checks twice. -/
def fromScratch : Session where
  found := [opened]
  moves := [.check green none 90000, .other { kind := "llm_response", epochMs := some 95000 },
    .check cut none 400000, .check green none 500000]

theorem fromScratch_sound : fromScratch.Sound "verify" where
  opened := by simp [fromScratch]
  stamped := ⟨[0, 90000, 95000, 400000, 500000], rfl, by decide⟩
  own := by
    intro ev hev
    simp only [fromScratch, List.mem_cons, List.not_mem_nil, reduceCtorEq, false_or, or_false,
      Move.other.injEq] at hev
    rw [hev]
    decide

theorem fromScratch_own :
    FromOwnChecks tenMinutes "verify" [opened] (fromScratch.made tenMinutes "verify" 1000) := by
  have hfloor : tenMinutes.floor ≤ tenMinutes.first := by norm_num [tenMinutes]
  exact (seconds_from_own_checks hfloor fromScratch_sound).mpr fun _ => rfl

/-- A fork that found one check of its parent's, copied a millisecond after the
record before it. -/
def forked : Session where
  found := [opened, checkEvent "verify" 600 green 1]
  moves := [.check green none 90001]

/-- **The first check is given its seconds by a copied record.** -/
theorem forked_not_own : forked.Sound "verify" ∧
    (forked.made tenMinutes "verify" 1000).map Made.seconds = [60] ∧
    ¬ FromOwnChecks tenMinutes "verify" forked.found (forked.made tenMinutes "verify" 1000) := by
  have hseconds : tenMinutes.seconds "verify" forked.found = 60 := by
    decide +kernel
  have hmade : (forked.made tenMinutes "verify" 1000).map Made.seconds = [60] := by
    show [tenMinutes.seconds "verify" forked.found] = [60]
    rw [hseconds]
  refine ⟨⟨by simp [forked], ⟨[0, 1, 90001], rfl, by decide⟩, ?_⟩, hmade, fun h => ?_⟩
  · intro ev hev
    simp [forked] at hev
  · have hfirst := h.firstGiven _ rfl
    rw [hseconds] at hfirst
    norm_num [tenMinutes] at hfirst

end AgentBlock.Policy.Verdict
