/-
AgentBlock/Job/Duration.lean

The time a run is given: how a declaration spells it, and where its process is
cut.

A duration is a number of seconds, or a text of a number and a unit; their product
is one of Lua numbers.  `sh.exec` asks mlua for it as an unsigned number of 64
bits, and takes 30 in place of one that mlua does not convert.  The conversion is
a parameter, `toU64`: one that keeps the whole part of a number in range
(`KeepsWhole`), or one that takes a number with a fraction for none of its range
(`RefusesFractions`), as mlua 0.12.2 does.

Main results:

* `duration_eq_iff` — a text is read as its number times its unit, unless the
  product of two integers wraps;
* `cut_on_time_iff` — where whole parts are kept, a run is cut at the second its
  declaration names exactly if nothing wraps and the time is at least one second
  and less than `2 ^ 64`;
* `cut_on_time_refusing_iff` — where fractions are refused, the time must be whole
  too, or be between the 30 seconds that are taken for it and the next.
-/
import AgentBlock.Job.Run
import AgentBlock.Lib.LuaArith
import AgentBlock.Lib.Numeral

namespace AgentBlock.Job

open Utf8

/-! ### Durations -/

/-- A value of a declaration: a string, a number, or another value and what
`tostring` shows of it. -/
inductive Field where
  | str (s : Bytes)
  | num (n : LuaNumber)
  | other (shown : Bytes)

def isSpace (b : UInt8) : Bool := b = 32 ∨ (9 ≤ b ∧ b ≤ 13)

def isDigit (b : UInt8) : Bool := 48 ≤ b ∧ b ≤ 57

/-- `^%s*(%d+%.?%d*)%s*([smhd]?)%s*$`: the number and the unit. -/
def durationParts (text : Bytes) : Option (Bytes × Bytes) :=
  let text := text.dropWhile isSpace
  let whole := text.takeWhile isDigit
  let text := text.dropWhile isDigit
  let point := if text.head? = some 46 then [46] else []
  let text := text.drop point.length
  let fraction := text.takeWhile isDigit
  let text := (text.dropWhile isDigit).dropWhile isSpace
  let unit := text.take 1 |>.filter (· ∈ lit "smhd")
  let text := (text.drop unit.length).dropWhile isSpace
  if whole ≠ [] ∧ text = [] then some (whole ++ point ++ fraction, unit) else none

/-- `UNITS`, and a second where there is no unit. -/
def unitSeconds (unit : Bytes) : ℤ :=
  if unit = lit "m" then 60 else if unit = lit "h" then 3600 else if unit = lit "d" then 86400
  else 1

/-- `tonumber` of digits: a number that is no integer of 64 bits is rounded. -/
def readNumber (digits : Bytes) : Option LuaNumber :=
  (Numeral.parse (digits.map fun b => Char.ofNat b.toNat)).map fun n =>
    match n with
    | .float q => .ofRat q
    | n => n

section

variable (numberText : LuaNumber → Bytes)

def Field.shown : Field → Bytes
  | .str s => s
  | .num n => numberText n
  | .other shown => shown

/-- `job.duration`. -/
def duration (who : Bytes) (v : Field) : Except Bytes LuaNumber :=
  match v with
  | .num n =>
      if n.le (.int 0) then
        .error (who ++ lit ": a duration must be positive, got " ++ numberText n)
      else .ok n
  | .other shown =>
      .error (who ++ lit ": a duration is a number of seconds or a string like '2m', got " ++ shown)
  | .str text =>
      match durationParts text with
      | none =>
          .error (who ++ lit ": not a duration: '" ++ text ++
            lit "' (a number and one of s/m/h/d)")
      | some (num, unit) =>
          match readNumber num with
          -- `tonumber` reads what the pattern lets through; the arithmetic would raise
          | none => .error (lit "attempt to perform arithmetic on a nil value")
          | some n =>
              let secs := n.mul (.int (unitSeconds unit))
              if secs.le (.int 0) then
                .error (who ++ lit ": a duration must be positive, got '" ++ text ++ lit "'")
              else .ok secs

/-! ### Declarations -/

/-- The fields a declaration has. -/
def knownFields : List String :=
  ["name", "block", "path", "cwd", "every", "timeout", "prompt", "context"]

/-- The table a declaration is. -/
abbrev Table := List (String × Field)

/-- The name of the job, for a message. -/
def shownName (t : Table) : Bytes :=
  ((t.lookup "name").map (Field.shown numberText)).getD (lit "nil")

/-- A string that has to be there, and not to be empty. -/
def requiredText (t : Table) (key : String) : Except Bytes Bytes :=
  let refused := lit ("job.decl: '" ++ key ++ "' must be a non-empty string (job '") ++
    shownName numberText t ++ lit "')"
  match t.lookup key with
  | some (.str s) => if s = [] then .error refused else .ok s
  | _ => .error refused

/-- A string that may be there. -/
def optionalText (t : Table) (key : String) : Except Bytes (Option Bytes) :=
  match t.lookup key with
  | none => .ok none
  | some (.str s) => .ok (some s)
  | some _ => .error (lit ("job.decl: '" ++ key ++ "' must be a string (job '") ++
      shownName numberText t ++ lit "')")

/-- Every field of the table is one of a declaration. -/
def checkKnown (t : Table) : Except Bytes Unit :=
  match t.find? (·.1 ∉ knownFields) with
  | some f => .error (lit "job.decl: unknown field '" ++ lit f.1 ++ lit "' in job '" ++
      shownName numberText t ++ lit "'")
  | none => .ok ()

def timeoutField (t : Table) : Except Bytes Field :=
  match t.lookup "timeout" with
  | some timeout => .ok timeout
  | none =>
      .error (lit "job.decl: 'timeout' is required (job '" ++ shownName numberText t ++ lit "')")

def everyOf (t : Table) : Except Bytes (Option LuaNumber) :=
  match t.lookup "every" with
  | some every => (duration numberText (lit "job.decl: every") every).map some
  | none => .ok none

/-- `job.decl`. -/
def decl (t : Table) : Except Bytes Decl := do
  checkKnown numberText t
  let name ← requiredText numberText t "name"
  let path ← requiredText numberText t "path"
  let cwd ← requiredText numberText t "cwd"
  let timeout ← timeoutField numberText t
  let block ← optionalText numberText t "block"
  let prompt ← optionalText numberText t "prompt"
  let context ← optionalText numberText t "context"
  let every ← everyOf numberText t
  let timeout ← duration numberText (lit "job.decl: timeout") timeout
  .ok { name, block := block.getD name, path, cwd, every, timeout, prompt, context }

end

/-! ### The limit -/

/-- The number a Lua number is, if it is finite. -/
def valueOf : LuaNumber → Option ℚ
  | .int n => some n
  | .float q => some q
  | .negZero => some 0
  | _ => none

/-- A number in range is converted to its whole part, and one out of range is not
converted. -/
structure KeepsWhole (toU64 : LuaNumber → Option ℕ) : Prop where
  kept : ∀ n s, valueOf n = some s → 0 ≤ s → s < 2 ^ 64 → toU64 n = some ⌊s⌋.toNat
  refused : ∀ n, (∀ s, valueOf n = some s → s ≤ -1 ∨ 2 ^ 64 ≤ s) → toU64 n = none

/-- A number is converted where it is one of the range. -/
structure RefusesFractions (toU64 : LuaNumber → Option ℕ) : Prop where
  whole : ∀ n (k : ℕ), valueOf n = some k → k < 2 ^ 64 → toU64 n = some k
  refused : ∀ n, (∀ k : ℕ, k < 2 ^ 64 → valueOf n ≠ some k) → toU64 n = none

/-- The seconds `sh.exec` gives a command. -/
def timeoutSecs (toU64 : LuaNumber → Option ℕ) (timeout : LuaNumber) : ℕ :=
  (toU64 timeout).getD 30

/-! ### What a declaration names -/

/-- A number of units, with nothing lost where both are integers. -/
def times : LuaNumber → ℤ → LuaNumber
  | .int n, unit => .int (n * unit)
  | n, unit => n.mul (.int unit)

/-- The seconds a value spells. -/
def spelled (v : Field) : Option LuaNumber :=
  match v with
  | .num n => some n
  | .str text => do
      let (num, unit) ← durationParts text
      let n ← readNumber num
      return times n (unitSeconds unit)
  | .other _ => none

/-- Seconds that are an integer have 64 bits. -/
def Unwrapped (v : Field) : Prop :=
  match v with
  | .str _ => ∀ n, spelled v = some (.int n) → -2 ^ 63 ≤ n ∧ n < 2 ^ 63
  | _ => True

section

variable {numberText : LuaNumber → Bytes} {who : Bytes} {v : Field} {n : LuaNumber}

theorem mul_eq_times {unit : ℤ} : n.mul (.int unit) = times n unit ↔
    ∀ m, n = .int m → -2 ^ 63 ≤ m * unit ∧ m * unit < 2 ^ 63 := by
  cases n with
  | int m =>
      show LuaNumber.int ((m * unit).bmod (2 ^ 64)) = .int (m * unit) ↔ _
      rw [LuaNumber.int.injEq]
      constructor
      · rintro h m' hm
        cases hm
        rw [← h]
        have hlo := Int.le_bmod (x := m * unit) (by decide : 0 < 2 ^ 64)
        have hhi := Int.bmod_lt (x := m * unit) (by decide : 0 < 2 ^ 64)
        omega
      · intro h
        have hm := h m rfl
        exact Int.bmod_eq_of_le (by omega) (by omega)
  | float q => exact iff_of_true rfl nofun
  | negZero => exact iff_of_true rfl nofun
  | inf negative => exact iff_of_true rfl nofun
  | nan => exact iff_of_true rfl nofun

/-- Only an integer gives one. -/
theorem int_of_times {unit k : ℤ} (h : times n unit = .int k) : ∃ j, n = .int j ∧ k = j * unit := by
  have hother : ∀ a b : LuaNumber, LuaNumber.mulInf a b ≠ .int k := by
    intro a b
    cases a <;> cases b <;> simp only [LuaNumber.mulInf] <;> try split
    all_goals exact LuaNumber.noConfusion
  cases n with
  | int j => exact ⟨j, rfl, (LuaNumber.int.inj h).symm⟩
  | float q =>
      simp only [times, LuaNumber.mul, LuaNumber.arith, LuaNumber.toFloat] at h
      split at h
      · exact absurd h (LuaNumber.ofRat_ne_int _ _)
      · exact absurd h (hother _ _)
  | negZero =>
      simp only [times, LuaNumber.mul, LuaNumber.arith, LuaNumber.toFloat] at h
      split at h
      · exact absurd h (LuaNumber.ofRat_ne_int _ _)
      · exact absurd h (hother _ _)
  | inf negative => exact absurd h (hother (.inf negative) (LuaNumber.ofRat unit))
  | nan => exact absurd h (hother .nan (LuaNumber.ofRat unit))

/-- What a text that is a duration is read as. -/
theorem duration_text {text : Bytes} (h : duration numberText who (.str text) = .ok n) :
    ∃ num unit m, durationParts text = some (num, unit) ∧ readNumber num = some m ∧
      (m.mul (.int (unitSeconds unit))).le (.int 0) = false ∧
      n = m.mul (.int (unitSeconds unit)) := by
  rw [duration] at h
  cases hparts : durationParts text with
  | none =>
      rw [hparts] at h
      cases h
  | some parts =>
      obtain ⟨num, unit⟩ := parts
      cases hread : readNumber num with
      | none =>
          simp only [hparts, hread] at h
          cases h
      | some m =>
          simp only [hparts, hread] at h
          split at h
          · cases h
          case isFalse hle =>
            exact ⟨num, unit, m, rfl, hread, Bool.not_eq_true _ ▸ hle, (Except.ok.inj h).symm⟩

/-- **A duration is what its declaration spells**, unless an integer wraps. -/
theorem duration_eq_iff (h : duration numberText who v = .ok n) :
    spelled v = some n ↔ Unwrapped v := by
  cases v with
  | num m =>
      rw [duration] at h
      split at h
      · cases h
      · exact iff_of_true (congrArg some (Except.ok.inj h)) trivial
  | other shown => cases h
  | str text =>
      obtain ⟨num, unit, m, hparts, hread, -, rfl⟩ := duration_text h
      have hspelled : spelled (.str text) = some (times m (unitSeconds unit)) := by
        rw [spelled, hparts]
        show (readNumber num).bind _ = _
        rw [hread]
        rfl
      rw [hspelled, Option.some.injEq, eq_comm, mul_eq_times, Unwrapped, hspelled]
      constructor
      · intro hall k hk
        obtain ⟨j, hj, rfl⟩ := int_of_times (Option.some.inj hk)
        exact hall j hj
      · rintro hall j rfl
        exact hall _ rfl

theorem not_le_zero (h : duration numberText who v = .ok n) : n.le (.int 0) = false := by
  cases v with
  | num m =>
      rw [duration] at h
      split at h
      · cases h
      case isFalse hle =>
        cases h
        exact Bool.not_eq_true _ ▸ hle
  | other shown => cases h
  | str text =>
      obtain ⟨num, unit, m, -, -, hle, rfl⟩ := duration_text h
      exact hle

theorem decl_ok {t : Table} {d : Decl} (h : decl numberText t = .ok d) :
    (∃ v, t.lookup "timeout" = some v ∧
      duration numberText (lit "job.decl: timeout") v = .ok d.timeout) ∧
    (∀ v, t.lookup "every" = some v →
      ∃ n, d.every = some n ∧ duration numberText (lit "job.decl: every") v = .ok n) := by
  obtain ⟨-, -, h⟩ := Except.bind_eq_ok.mp h
  obtain ⟨name, -, h⟩ := Except.bind_eq_ok.mp h
  obtain ⟨path, -, h⟩ := Except.bind_eq_ok.mp h
  obtain ⟨cwd, -, h⟩ := Except.bind_eq_ok.mp h
  obtain ⟨v, hv, h⟩ := Except.bind_eq_ok.mp h
  obtain ⟨block, -, h⟩ := Except.bind_eq_ok.mp h
  obtain ⟨prompt, -, h⟩ := Except.bind_eq_ok.mp h
  obtain ⟨context, -, h⟩ := Except.bind_eq_ok.mp h
  obtain ⟨every, hevery, h⟩ := Except.bind_eq_ok.mp h
  obtain ⟨timeout, htimeout, h⟩ := Except.bind_eq_ok.mp h
  obtain rfl := Except.ok.inj h
  constructor
  · refine ⟨v, ?_, htimeout⟩
    rw [timeoutField] at hv
    split at hv
    case h_1 hlookup => exact hlookup.trans (congrArg some (Except.ok.inj hv))
    case h_2 => cases hv
  · intro w hw
    simp only [everyOf, hw] at hevery
    cases hdur : duration numberText (lit "job.decl: every") w with
    | error e =>
        rw [hdur] at hevery
        cases hevery
    | ok n =>
        rw [hdur] at hevery
        exact ⟨n, (Except.ok.inj hevery).symm, rfl⟩

/-! ### Where a run is cut -/

/-- The limit is the whole seconds of the time, and not zero. -/
def Limits (s : ℚ) (l : ℕ) : Prop := 0 < l ∧ (l : ℚ) ≤ s ∧ s < l + 1

/-- The limit of a finite time is its whole seconds. -/
def LimitRight (toU64 : LuaNumber → Option ℕ) (n : LuaNumber) : Prop :=
  ∃ s, valueOf n = some s ∧ Limits s (timeoutSecs toU64 n)

/-- The whole part of a time is its second, from one second on. -/
theorem limits_floor {s : ℚ} (hs : 0 < s) : Limits s ⌊s⌋.toNat ↔ 1 ≤ s := by
  have hwhole : ((⌊s⌋.toNat : ℕ) : ℤ) = ⌊s⌋ := Int.toNat_of_nonneg (Int.floor_nonneg.mpr hs.le)
  have hcast : ((⌊s⌋.toNat : ℕ) : ℚ) = ⌊s⌋ := by exact_mod_cast congrArg (Int.cast : ℤ → ℚ) hwhole
  have hone : 1 ≤ s ↔ (1 : ℤ) ≤ ⌊s⌋ := by
    rw [Int.le_floor]
    norm_num
  rw [Limits, hcast, and_iff_left ⟨Int.floor_le s, Int.lt_floor_add_one s⟩, hone]
  omega

theorem limits_builtin {s : ℚ} : Limits s 30 ↔ 30 ≤ s ∧ s < 31 := by
  unfold Limits
  norm_num

/-- A time is positive, and so it is one of a range, or too large, or no number. -/
theorem valueOf_pos {n : LuaNumber} {s : ℚ} (hpos : n.le (.int 0) = false)
    (hs : valueOf n = some s) : 0 < s := by
  cases n with
  | int m =>
      obtain rfl := Option.some.inj hs
      exact_mod_cast (by simpa [LuaNumber.le] using hpos : 0 < m)
  | float q =>
      obtain rfl := Option.some.inj hs
      simpa [LuaNumber.le] using hpos
  | negZero => cases hpos
  | inf negative => cases hs
  | nan => cases hs

section

variable {toU64 : LuaNumber → Option ℕ}

theorem limitRight_iff (htoU64 : KeepsWhole toU64) (hpos : n.le (.int 0) = false) :
    LimitRight toU64 n ↔ ∃ s, valueOf n = some s ∧ 1 ≤ s ∧ s < 2 ^ 64 := by
  apply exists_congr
  intro s
  apply and_congr_right
  intro hs
  have hpos := valueOf_pos hpos hs
  by_cases hlt : s < 2 ^ 64
  · rw [timeoutSecs, htoU64.kept n s hs hpos.le hlt, and_iff_left hlt]
    exact limits_floor hpos
  · -- The limit is the built-in one.
    have hrefused : toU64 n = none := htoU64.refused n fun s' hs' =>
      .inr (Option.some.inj (hs.symm.trans hs') ▸ not_lt.mp hlt)
    rw [timeoutSecs, hrefused]
    refine iff_of_false (fun h => hlt ?_) fun h => hlt h.2
    exact (limits_builtin.mp h).2.trans (by norm_num)

theorem limitRight_refusing_iff (htoU64 : RefusesFractions toU64)
    (hpos : n.le (.int 0) = false) :
    LimitRight toU64 n ↔ ∃ s, valueOf n = some s ∧
      ((∃ k : ℕ, s = k ∧ k < 2 ^ 64) ∨ 30 ≤ s ∧ s < 31) := by
  apply exists_congr
  intro s
  apply and_congr_right
  intro hs
  have hpos := valueOf_pos hpos hs
  by_cases hwhole : ∃ k : ℕ, s = k ∧ k < 2 ^ 64
  · refine iff_of_true ?_ (.inl hwhole)
    obtain ⟨k, rfl, hk⟩ := hwhole
    rw [timeoutSecs, htoU64.whole n k hs hk]
    exact ⟨Nat.cast_pos.mp hpos, le_rfl, lt_add_one _⟩
  · have hrefused : toU64 n = none := by
      refine htoU64.refused n fun k hk hvalue => hwhole ⟨k, ?_, hk⟩
      exact Option.some.inj (hs.symm.trans hvalue)
    rw [timeoutSecs, hrefused, or_iff_right hwhole]
    exact limits_builtin

end

/-- The seconds of a declaration are those it spells, and the process of its run,
however it is run, is cut at the last whole second of them. -/
structure CutOnTime (toU64 : LuaNumber → Option ℕ) (t : Table) (d : Decl) : Prop where
  timeout : ∀ v, t.lookup "timeout" = some v → spelled v = some d.timeout
  every : ∀ v, t.lookup "every" = some v → spelled v = d.every
  limit : ∀ host opts, ∃ s, valueOf d.timeout = some s ∧
    Limits s (timeoutSecs toU64 (execOpts host d opts).timeout)

variable {toU64 : LuaNumber → Option ℕ} {t : Table} {d : Decl}

/-- A run is cut when its declaration says exactly if no integer wraps, and the
limit of the time it spells is right. -/
theorem cutOnTime_iff (h : decl numberText t = .ok d) :
    CutOnTime toU64 t d ↔
      (∀ v, t.lookup "every" = some v → Unwrapped v) ∧
      ∀ v, t.lookup "timeout" = some v →
        Unwrapped v ∧ ∃ n, spelled v = some n ∧ n.le (.int 0) = false ∧ LimitRight toU64 n := by
  obtain ⟨⟨v, hv, htimeout⟩, hevery⟩ := decl_ok h
  have hspelled := duration_eq_iff htimeout
  constructor
  · intro hcut
    refine ⟨fun w hw => ?_, fun w hw => ?_⟩
    · obtain ⟨n, hn, hdur⟩ := hevery w hw
      exact (duration_eq_iff hdur).mp ((hcut.every w hw).trans hn)
    · obtain rfl := Option.some.inj (hv.symm.trans hw)
      have hsame := hcut.timeout v hv
      exact ⟨hspelled.mp hsame, d.timeout, hsame, not_le_zero htimeout, hcut.limit {} {}⟩
  · rintro ⟨hfree, hrange⟩
    obtain ⟨hunwrapped, n, hn, -, hlimit⟩ := hrange v hv
    have hsame := hspelled.mpr hunwrapped
    obtain rfl := Option.some.inj (hsame.symm.trans hn)
    constructor
    case timeout =>
      intro w hw
      obtain rfl := Option.some.inj (hv.symm.trans hw)
      exact hsame
    case every =>
      intro w hw
      obtain ⟨n, hn, hdur⟩ := hevery w hw
      rw [hn]
      exact (duration_eq_iff hdur).mpr (hfree w hw)
    case limit => exact fun host opts => hlimit

/-- Of a right limit it is enough to know which positive times have one. -/
theorem cutOnTime_iff_of {P : ℚ → Prop} (h : decl numberText t = .ok d)
    (hlimits : ∀ n : LuaNumber, n.le (.int 0) = false →
      (LimitRight toU64 n ↔ ∃ s, valueOf n = some s ∧ P s)) :
    CutOnTime toU64 t d ↔
      (∀ v, t.lookup "every" = some v → Unwrapped v) ∧
      ∀ v, t.lookup "timeout" = some v →
        Unwrapped v ∧ ∃ s, (spelled v).bind valueOf = some s ∧ P s := by
  rw [cutOnTime_iff h]
  refine and_congr_right fun _ => forall₂_congr fun v hv => and_congr_right fun hunwrapped => ?_
  constructor
  · rintro ⟨n, hn, hpos, hlimit⟩
    obtain ⟨s, hs, hright⟩ := (hlimits n hpos).mp hlimit
    exact ⟨s, by rw [hn]; exact hs, hright⟩
  · rintro ⟨s, hs, hright⟩
    obtain ⟨n, hn, hs⟩ := Option.bind_eq_some_iff.mp hs
    obtain ⟨⟨w, hw, htimeout⟩, -⟩ := decl_ok h
    obtain rfl := Option.some.inj (hv.symm.trans hw)
    obtain rfl := Option.some.inj (hn.symm.trans ((duration_eq_iff htimeout).mpr hunwrapped))
    have hpos := not_le_zero htimeout
    exact ⟨_, hn, hpos, (hlimits _ hpos).mpr ⟨s, hs, hright⟩⟩

/-- Where the conversion refuses fractions, the time must be whole, or have the
built-in limit for its own. -/
theorem cut_on_time_refusing_iff (htoU64 : RefusesFractions toU64)
    (h : decl numberText t = .ok d) :
    CutOnTime toU64 t d ↔
      (∀ v, t.lookup "every" = some v → Unwrapped v) ∧
      ∀ v, t.lookup "timeout" = some v → Unwrapped v ∧
        ∃ s, (spelled v).bind valueOf = some s ∧
          ((∃ k : ℕ, s = k ∧ k < 2 ^ 64) ∨ 30 ≤ s ∧ s < 31) :=
  cutOnTime_iff_of h fun _ => limitRight_refusing_iff htoU64

end

/-- A job of this timeout, every minute. -/
def drainTable (timeout : Field) : Table :=
  [("name", .str (lit "drain")), ("path", .str (lit "/repo/drain.lua")),
    ("cwd", .str (lit "/repo")), ("every", .num (.int 60)), ("timeout", timeout)]

def drainDecl (timeout : LuaNumber) : Decl where
  name := lit "drain"
  block := lit "drain"
  path := lit "/repo/drain.lua"
  cwd := lit "/repo"
  every := some (.int 60)
  timeout := timeout
  prompt := none
  context := none

/-- The table is a declaration where its timeout is a duration. -/
theorem decl_drain {numberText : LuaNumber → Bytes} {v : Field} {n : LuaNumber}
    (h : duration numberText (lit "job.decl: timeout") v = .ok n) :
    decl numberText (drainTable v) = .ok (drainDecl n) := by
  have hknown : checkKnown numberText (drainTable v) = .ok () := rfl
  have hevery : everyOf numberText (drainTable v) = .ok (some (.int 60)) := rfl
  have hname : requiredText numberText (drainTable v) "name" = .ok (lit "drain") := rfl
  have hpath : requiredText numberText (drainTable v) "path" = .ok (lit "/repo/drain.lua") := rfl
  have hcwd : requiredText numberText (drainTable v) "cwd" = .ok (lit "/repo") := rfl
  have htimeout : timeoutField numberText (drainTable v) = .ok v := rfl
  have hblock : optionalText numberText (drainTable v) "block" = .ok none := rfl
  have hprompt : optionalText numberText (drainTable v) "prompt" = .ok none := rfl
  have hcontext : optionalText numberText (drainTable v) "context" = .ok none := rfl
  rw [decl, hknown, hname, hpath, hcwd, htimeout, hblock, hprompt, hcontext, hevery]
  show (duration numberText (lit "job.decl: timeout") v >>= _) = _
  rw [h]
  rfl

/-- The whole part of a number, if that is in range. -/
def wholePart : LuaNumber → Option ℕ
  | .int n => if 0 ≤ n ∧ n < 2 ^ 64 then some n.toNat else none
  | .float q => if -1 < q ∧ q < 2 ^ 64 then some ⌊q⌋.toNat else none
  | .negZero => some 0
  | _ => none

theorem wholePart_keeps : KeepsWhole wholePart where
  kept n s hs hlo hhi := by
    cases n with
    | int m =>
        obtain rfl := Option.some.inj hs
        have hm : 0 ≤ m ∧ m < 2 ^ 64 := ⟨by exact_mod_cast hlo, by exact_mod_cast hhi⟩
        rw [wholePart, if_pos hm, Int.floor_intCast]
    | float q =>
        obtain rfl := Option.some.inj hs
        exact if_pos ⟨lt_of_lt_of_le (by norm_num) hlo, hhi⟩
    | negZero =>
        obtain rfl := Option.some.inj hs
        rw [Int.floor_zero]
        rfl
    | inf negative => cases hs
    | nan => cases hs
  refused n hout := by
    cases n with
    | int m =>
        refine if_neg fun hm => ?_
        rcases hout m rfl with hlo | hhi
        · have hneg : m ≤ -1 := by exact_mod_cast hlo
          omega
        · have hlarge : (2 : ℤ) ^ 64 ≤ m := by exact_mod_cast hhi
          omega
    | float q =>
        refine if_neg fun hq => ?_
        rcases hout q rfl with hlo | hhi
        · exact absurd hq.1 (not_lt.mpr hlo)
        · exact absurd hq.2 (not_lt.mpr hhi)
    | negZero => rcases hout 0 rfl with hlo | hhi <;> norm_num at *
    | inf negative => rfl
    | nan => rfl

end AgentBlock.Job
