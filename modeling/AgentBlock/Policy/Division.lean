/-
AgentBlock/Policy/Division.lean

What the division of a room promises.

The prompt's side and the reply's side are computed apart, so the law is that
they meet.  It is a law of whole numbers of at most 53 bits: beyond, an integer
beside a float is rounded, and so is a count that is not whole.

Main results:

* `room_agrees` — the three readings of a room agree on every count;
* `room_divides` — the division of every room over such a window;
* `division_rounds` — where it is rounded instead.
-/
import AgentBlock.Policy.Room

namespace AgentBlock.Policy

/-! ### Statement -/

section

variable (tostring : Lua → String)

/-- The three readings of a room are one: the split and the stop point take the
reply for what `reply` answers, and `policy.split` is the room's own. -/
structure Agrees (port : Port) (opts : RoomOpts) (r : Room) : Prop where
  split : ∀ used n, wholeAtLeast used 0 = some n → ∃ reply out, r.reply tostring n = .ok reply ∧
    r.split tostring used = .ok out ∧ out.room = some reply
  thinking : ∀ callReserve, r.callReserve = some callReserve → ∀ used budget,
    ∃ reply, r.reply tostring used = .ok reply ∧
      r.thinkingStop tostring used budget = .ok (Room.stopPoint callReserve budget reply)
  policy : ∀ used, (wholeAtLeast used 0).isSome = true ∨ used = .nil →
    Policy.split tostring port opts used = r.split tostring used

/-- What a room is divided into: the window `w`, the cap `o`, what is held
`h` of the reserve `n`, and the limit `l`. -/
structure Divides (opts : RoomOpts) (r : Room) (w o h l n : Int) : Prop where
  window : r.window = .int w
  maxOutput : r.maxOutput = .int o
  held : r.held = .int h
  limit : r.limit = .int l
  reserve : (numberOr opts.reserve (.int 0)).Is n
  limit_pos : 1 ≤ l
  whole : l + h + o = w
  shares : ∃ one beat, r.resultLimit = .int one ∧ r.beatBudget = .int beat ∧ one ≤ beat ∧ beat ≤ l
  reply : ∀ used u, used.Is u → 0 ≤ u → u ≤ l → ∃ reply k, r.reply tostring used = .ok reply ∧
    reply.Is k ∧ (0 < o ∨ 0 < n → 1 ≤ k) ∧ (0 < o → k = o) ∧ (o = 0 → n ≤ k) ∧ u + k ≤ w
  thinking : ∀ used u, used.Is u → 0 ≤ u → u ≤ l → ∀ budget stop,
    r.thinkingStop tostring used budget = .ok (some stop) →
    (LuaNumber.int 1).le stop = true ∧ (∀ b, budget = some b → b ≠ .nan → stop.le b = true) ∧
      ∃ callReserve c reply k, r.callReserve = some callReserve ∧ callReserve.Is c ∧
        r.reply tostring used = .ok reply ∧ reply.Is k ∧ stop.le (.int (k - c)) = true

/-- The share a caller gives is a number. -/
def NoNaN (opts : RoomOpts) : Prop :=
  opts.resultShare ≠ .num .nan ∧ opts.beatShare ≠ .num .nan

end

/-! ### Reading the options -/

section

variable {tostring : Lua → String} {port : Port} {opts : RoomOpts} {r : Room}
  {profile v : Lua} {who who' : String} {window output n : LuaNumber}

theorem check_eq_ok {passes : Bool} {text : String} {u : Unit} :
    check passes text = .ok u ↔ passes = true := by
  cases passes
  · exact ⟨nofun, nofun⟩
  · exact ⟨fun _ => rfl, fun _ => rfl⟩

theorem check_pass {passes : Bool} (h : passes = true) (text : String) :
    check passes text = .ok () := by
  rw [h]
  rfl

theorem wholeAtLeast_eq_some {least : Int} :
    wholeAtLeast v least = some n ↔
      v = .num n ∧ ∃ k, n.Is k ∧ least ≤ k := by
  cases v with
  | num m =>
      show (if m.isWhole && (LuaNumber.int least).le m then some m else none) = some n ↔ _
      constructor
      · intro h
        split at h
        · rename_i hm
          cases h
          obtain ⟨hwhole, hle⟩ := Bool.and_eq_true _ _ ▸ hm
          obtain ⟨k, hk⟩ := LuaNumber.is_of_isWhole hwhole
          exact ⟨rfl, k, hk, ((LuaNumber.is_int least).le_iff hk).mp hle⟩
        · cases h
      · rintro ⟨hm, k, hk, hle⟩
        cases hm
        rw [hk.isWhole, ((LuaNumber.is_int least).le_iff hk).mpr hle]
        rfl
  | _ => exact ⟨nofun, fun h => nomatch h.1⟩

/-- The numbers a profile names. -/
structure Names (profile : Lua) (window output : LuaNumber) : Prop where
  table : profile.isTable = true
  contextWindow : wholeAtLeast (profile.get "context_window") 1 = some window
  maxOutput : profile.get "max_output" = .nil ∧ output = .int 0 ∨
    wholeAtLeast (profile.get "max_output") 0 = some output
  lt : window.le output = false

theorem contextWindow_ok :
    contextWindow profile who = .ok window ↔
      wholeAtLeast (profile.get "context_window") 1 = some window := by
  rw [contextWindow]
  cases wholeAtLeast (profile.get "context_window") 1 with
  | none => exact ⟨nofun, nofun⟩
  | some w => simp

theorem maxOutput_ok :
    maxOutput tostring profile who = .ok output ↔
      profile.get "max_output" = .nil ∧ output = .int 0 ∨
        wholeAtLeast (profile.get "max_output") 0 = some output := by
  rw [maxOutput]
  cases hv : profile.get "max_output" with
  | nil =>
      simp only [Except.ok.injEq, true_and, eq_comm]
      exact ⟨.inl, fun h => h.resolve_right nofun⟩
  | _ =>
      simp only [reduceCtorEq, false_and, false_or]
      cases wholeAtLeast _ 0 <;> simp

theorem leavesNoRoom_ne_ok {p : LuaNumber × LuaNumber} :
    leavesNoRoom who output window ≠ .ok p := by
  intro h
  obtain ⟨o, -, h⟩ := Except.bind_eq_ok.mp h
  obtain ⟨w, -, h⟩ := Except.bind_eq_ok.mp h
  cases h

theorem holdsTooMuch_ne_ok {reserve : LuaNumber} {p : LuaNumber × LuaNumber} :
    holdsTooMuch who reserve output window ≠ .ok p := by
  intro h
  obtain ⟨r, -, h⟩ := Except.bind_eq_ok.mp h
  obtain ⟨o, -, h⟩ := Except.bind_eq_ok.mp h
  obtain ⟨w, -, h⟩ := Except.bind_eq_ok.mp h
  cases h

/-- What the split answers does not depend on who asks. -/
theorem profileSplit_ok {p : LuaNumber × LuaNumber} :
    profileSplit tostring profile who = .ok p ↔
      ∃ window output, Names profile window output ∧ p = (window.floor, output.floor) := by
  constructor
  · intro h
    obtain ⟨u, hu, h⟩ := Except.bind_eq_ok.mp h
    obtain ⟨window, hw, h⟩ := Except.bind_eq_ok.mp h
    obtain ⟨output, ho, h⟩ := Except.bind_eq_ok.mp h
    split at h
    · exact absurd h leavesNoRoom_ne_ok
    · rename_i hlt
      refine ⟨window, output, ⟨check_eq_ok.mp hu, contextWindow_ok.mp hw, maxOutput_ok.mp ho, ?_⟩, ?_⟩
      · exact Bool.eq_false_iff.mpr hlt
      · exact (Except.ok.inj h).symm
  · rintro ⟨window, output, hnames, rfl⟩
    refine Except.bind_eq_ok.mpr ⟨(), check_eq_ok.mpr hnames.table, ?_⟩
    refine Except.bind_eq_ok.mpr ⟨window, contextWindow_ok.mpr hnames.contextWindow, ?_⟩
    refine Except.bind_eq_ok.mpr ⟨output, maxOutput_ok.mpr hnames.maxOutput, ?_⟩
    rw [hnames.lt]
    rfl

theorem replyRoom_ok {used : LuaNumber}
    (h : profileSplit tostring profile who = .ok (window, output)) :
    replyRoom tostring profile who' used =
      .ok (if (LuaNumber.int 0).lt output && output.lt (window.sub used) then output
        else window.sub used) := by
  have h' : profileSplit tostring profile who' = .ok (window, output) :=
    profileSplit_ok.mpr (profileSplit_ok.mp h)
  rw [replyRoom, h']
  rfl

theorem requestLimit_ok {reserve : LuaNumber} {p : LuaNumber × LuaNumber}
    (h : requestLimit tostring profile who reserve = .ok p) :
    ∃ window output, profileSplit tostring profile who = .ok (window, output) ∧
      p = ((window.sub output).sub ((LuaNumber.int 0).max (reserve.sub output)),
        (LuaNumber.int 0).max (reserve.sub output)) ∧ p.1.lt (.int 1) = false := by
  obtain ⟨⟨window, output⟩, hsplit, h⟩ := Except.bind_eq_ok.mp h
  refine ⟨window, output, hsplit, ?_⟩
  simp only at h
  split at h
  · exact absurd h holdsTooMuch_ne_ok
  · rename_i hlt
    cases h
    exact ⟨rfl, Bool.eq_false_iff.mpr hlt⟩

/-- What a room was built from. -/
structure Built (tostring : Lua → String) (port : Port) (opts : RoomOpts) (r : Room)
    (left back : LuaNumber) : Prop where
  conf : (opts.conf.isNil || opts.conf.isTable) = true
  reserve : (opts.reserve.isNil || (wholeAtLeast opts.reserve 0).isSome) = true
  resultShare : isShare opts.resultShare = true
  beatShare : isShare opts.beatShare = true
  order : (numberOr opts.beatShare DEFAULT_BEAT_SHARE).lt
    (numberOr opts.resultShare DEFAULT_RESULT_SHARE) = false
  profile : port.profile opts.conf = .ok r.profile
  split : profileSplit tostring r.profile "policy.room" = .ok (r.window, r.maxOutput)
  limits : requestLimit tostring r.profile "policy.room" (numberOr opts.reserve (.int 0)) =
    .ok (left, back)
  limit : r.limit = left.floor
  held : r.held = back.floor
  resultLimit : r.resultLimit = (left.mul (numberOr opts.resultShare DEFAULT_RESULT_SHARE)).floor
  beatBudget : r.beatBudget = (left.mul (numberOr opts.beatShare DEFAULT_BEAT_SHARE)).floor
  callReserve : r.callReserve = wholeAtLeast opts.callReserve 0

theorem room_ok (h : room tostring port opts = .ok r) :
    ∃ left back, Built tostring port opts r left back := by
  obtain ⟨_, hconf, h⟩ := Except.bind_eq_ok.mp h
  obtain ⟨_, hreserve, h⟩ := Except.bind_eq_ok.mp h
  obtain ⟨_, hresult, h⟩ := Except.bind_eq_ok.mp h
  obtain ⟨_, hbeat, h⟩ := Except.bind_eq_ok.mp h
  obtain ⟨_, hcall, h⟩ := Except.bind_eq_ok.mp h
  obtain ⟨_, horder, h⟩ := Except.bind_eq_ok.mp h
  obtain ⟨profile, hprofile, h⟩ := Except.bind_eq_ok.mp h
  obtain ⟨⟨window, output⟩, hsplit, h⟩ := Except.bind_eq_ok.mp h
  obtain ⟨⟨limit, held⟩, hlimits, h⟩ := Except.bind_eq_ok.mp h
  cases h
  exact ⟨limit, held, check_eq_ok.mp hconf, check_eq_ok.mp hreserve, check_eq_ok.mp hresult,
    check_eq_ok.mp hbeat, Bool.not_eq_true' _ ▸ check_eq_ok.mp horder, hprofile, hsplit, hlimits,
    rfl, rfl, rfl, rfl, rfl⟩

end

/-! ### The two sides -/

section

variable {a b v window output reserve share : LuaNumber} {w o n l u : Int}

theorem lt_one (h : v.le (.int 0) = true) : v.lt (.int 1) = true :=
  LuaNumber.lt_of_le_of_lt' h rfl

/-- What is held back, and the limit, where one is left.  A reserve beyond the
window would leave none. -/
theorem limit_exact (hw : LuaNumber.Small w) (ho : 0 ≤ o) (how : o < w) (hn : 0 ≤ n)
    (hreserve : reserve.Is n) (hrep : reserve.Representable)
    (hlimit : (((LuaNumber.int w).sub (.int o)).sub
      ((LuaNumber.int 0).max (reserve.sub (.int o)))).lt (.int 1) = false) :
    ((LuaNumber.int 0).max (reserve.sub (.int o))).Is (max 0 (n - o)) ∧
      (((LuaNumber.int w).sub (.int o)).sub
        ((LuaNumber.int 0).max (reserve.sub (.int o)))).Is (w - o - max 0 (n - o)) ∧
      1 ≤ w - o - max 0 (n - o) := by
  have hw' : w ≤ 2 ^ 53 := (le_abs_self w).trans hw
  have hsmall : ∀ k : Int, -w ≤ k → k ≤ w → LuaNumber.Small k := fun k hlo hhi =>
    abs_le.mpr ⟨by omega, by omega⟩
  have hside : ((LuaNumber.int w).sub (.int o)).Is (w - o) :=
    (LuaNumber.is_int w).sub (LuaNumber.is_int o) hw (hsmall o (by omega) (by omega))
      (hsmall _ (by omega) (by omega))
  rcases le_or_gt n w with hnw | hnw
  · have hdiff : (reserve.sub (.int o)).Is (n - o) :=
      hreserve.sub (LuaNumber.is_int o) (hsmall n (by omega) hnw) (hsmall o (by omega) (by omega))
        (hsmall _ (by omega) (by omega))
    have hheld := (LuaNumber.is_int 0).max hdiff
    have hrest := hside.sub hheld (hsmall _ (by omega) (by omega)) (hsmall _ (by omega) (by omega))
      (hsmall _ (by omega) (by omega))
    refine ⟨hheld, hrest, not_lt.mp fun hlt => ?_⟩
    rw [(hrest.lt_iff (LuaNumber.is_int 1)).mpr hlt] at hlimit
    cases hlimit
  · -- what is held back leaves nothing
    have hdiff : (LuaNumber.int (w - o)).le (reserve.sub (.int o)) = true :=
      hreserve.le_sub hrep ho (hsmall o (by omega) (by omega)) (by omega) (by omega)
        (hsmall _ (by omega) (by omega))
    have hheld : (LuaNumber.int (w - o)).le ((LuaNumber.int 0).max (reserve.sub (.int o))) = true :=
      LuaNumber.le_max' nofun hdiff
    have hrep' : ((LuaNumber.int 0).max (reserve.sub (.int o))).Representable := by
      rw [LuaNumber.max]
      split
      · exact LuaNumber.representable_sub _ _
      · constructor <;> norm_num
    have hzero := hside.sub_le_zero (by omega) (hsmall _ (by omega) (by omega)) hheld hrep'
    rw [lt_one hzero] at hlimit
    cases hlimit

/-- The reply's side. -/
theorem reply_exact (hw : LuaNumber.Small w) {used : LuaNumber} (hused : used.Is u) (hu : 0 ≤ u) (huw : u ≤ w) :
    (if (LuaNumber.int 0).lt (.int o) && (LuaNumber.int o).lt ((LuaNumber.int w).sub used)
      then .int o else (LuaNumber.int w).sub used).Is
      (if 0 < o ∧ o < w - u then o else w - u) := by
  have hsmall : ∀ k : Int, 0 ≤ k → k ≤ w → LuaNumber.Small k := fun k hlo hhi =>
    LuaNumber.small_of_le hhi hlo hw
  have hside : ((LuaNumber.int w).sub used).Is (w - u) :=
    (LuaNumber.is_int w).sub hused hw (hsmall u hu huw) (hsmall _ (by omega) (by omega))
  have hcond : ((LuaNumber.int 0).lt (.int o) && (LuaNumber.int o).lt ((LuaNumber.int w).sub used)) =
      true ↔ 0 < o ∧ o < w - u := by
    rw [Bool.and_eq_true, (LuaNumber.is_int 0).lt_iff (LuaNumber.is_int o),
      (LuaNumber.is_int o).lt_iff hside]
  by_cases h : 0 < o ∧ o < w - u
  · rw [if_pos (hcond.mpr h), if_pos h]
    exact LuaNumber.is_int o
  · rw [if_neg (mt hcond.mp h), if_neg h]
    exact hside

/-- The number a share is. -/
def IsShare (v : LuaNumber) (q : Rat) : Prop :=
  (v = .float q ∨ v = .int 1 ∧ q = 1) ∧ 0 < q ∧ q ≤ 1

theorem isShare_number {v : Lua} {other : LuaNumber} {q : Rat} (h : isShare v = true)
    (hnan : v ≠ .num .nan) (hother : IsShare other q) : ∃ q, IsShare (numberOr v other) q := by
  cases v with
  | nil => exact ⟨q, hother⟩
  | num n =>
      obtain ⟨hlo, hhi⟩ := Bool.and_eq_true _ _ ▸ h
      cases n with
      | int k =>
          have hk : k = 1 := by
            simp [LuaNumber.le, LuaNumber.lt, LuaNumber.eq] at hlo hhi
            omega
          exact ⟨1, .inr ⟨congrArg LuaNumber.int hk, rfl⟩, one_pos, le_rfl⟩
      | float q =>
          simp [LuaNumber.le, LuaNumber.lt, LuaNumber.eq] at hlo hhi
          exact ⟨q, .inl rfl, hlo, hhi.elim le_of_lt fun h => h.ge⟩
      | negZero => cases hlo
      | inf negative => cases negative <;> simp [LuaNumber.le, LuaNumber.lt, LuaNumber.eq] at hlo hhi
      | nan => exact absurd rfl hnan
  | _ => cases h

/-- A share of the limit, in whole tokens. -/
theorem floor_mul_share {q : Rat} (hl : LuaNumber.Small l) (hl0 : 0 ≤ l) (hv : v.Is l)
    (hshare : IsShare share q) : (v.mul share).floor = .int ⌊double (l * q)⌋ := by
  obtain ⟨hq, hq0, hq1⟩ := hshare
  have hl0' : (0 : Rat) ≤ l := by exact_mod_cast hl0
  have hlo : 0 ≤ double (l * q) := double_nonneg (mul_nonneg hl0' hq0.le)
  have hhi : double (l * q) ≤ l := by
    calc double (l * q) ≤ double l :=
          double_le_double (mul_nonneg hl0' hq0.le) (mul_le_of_le_one_right hl0' hq1)
      _ = l := double_intCast hl
  -- the product is rounded once, and is still between zero and the limit
  have hfloor : (LuaNumber.ofRat (l * q)).floor = .int ⌊double (l * q)⌋ := by
    have hlt : |double (l * q)| < 2 ^ 1024 := by
      have hl' : (l : Rat) ≤ 2 ^ 53 := by exact_mod_cast (le_abs_self l).trans hl
      rw [abs_of_nonneg hlo]
      exact (hhi.trans hl').trans_lt (pow_lt_pow_right₀ (by norm_num) (by norm_num))
    have hfloor0 : 0 ≤ ⌊double (l * q)⌋ := Int.floor_nonneg.mpr hlo
    have hfloorl : ⌊double (l * q)⌋ ≤ l := Int.floor_le_iff.mpr (by linarith)
    have hlrep := hl.lt
    rw [LuaNumber.ofRat, if_pos hlt, LuaNumber.floor, if_pos (by omega)]
  have hfloats : ((LuaNumber.float l).mul share).floor = .int ⌊double (l * q)⌋ := by
    rcases hq with rfl | ⟨rfl, rfl⟩
    · exact hfloor
    · have hfloat : (LuaNumber.float l).toFloat = .float l := rfl
      simp only [LuaNumber.mul, LuaNumber.arith, (LuaNumber.is_int 1).toFloat (by norm_num), hfloat]
      exact hfloor
  rcases hv with rfl | rfl | ⟨rfl, rfl⟩
  · rcases hq with rfl | ⟨rfl, rfl⟩
    · have hfloat : (LuaNumber.float q).toFloat = .float q := rfl
      simp only [LuaNumber.mul, LuaNumber.arith, (LuaNumber.is_int l).toFloat hl, hfloat]
      exact hfloor
    · rw [mul_one, double_intCast hl, Int.floor_intCast]
      show (LuaNumber.int ((l * 1).bmod (2 ^ 64))) = _
      have hlrep := hl.lt
      rw [mul_one, Int.bmod_eq_of_le (by omega) (by omega)]
  · exact hfloats
  -- a share is positive, so the sign of the zero is lost with the floor
  · have hzero : LuaNumber.negZero.mul share = (LuaNumber.float ((0 : ℤ) : ℚ)).mul share := by
      rw [Int.cast_zero]
      cases share <;> rfl
    rw [hzero]
    exact hfloats

theorem share_le_share {p q : Rat} (hv : IsShare v p) (hshare : IsShare share q)
    (h : share.lt v = false) : p ≤ q := by
  have hextended : ∀ {v : LuaNumber} {q}, IsShare v q →
      v ≠ .nan ∧ v.extended = ((q : WithTop Rat) : WithBot (WithTop Rat)) := by
    rintro v q ⟨rfl | ⟨rfl, rfl⟩, -⟩
    · exact ⟨nofun, rfl⟩
    · exact ⟨nofun, by simp [LuaNumber.extended]⟩
  obtain ⟨hv, hv'⟩ := hextended hv
  obtain ⟨hshare, hshare'⟩ := hextended hshare
  have hle := (LuaNumber.le_iff_extended.mp (LuaNumber.le_of_not_lt' hshare hv h)).2.2
  rw [hv', hshare'] at hle
  exact_mod_cast hle

/-- Shares of one limit, the smaller first. -/
theorem floor_le_floor_share {p q : Rat} (hl : LuaNumber.Small l) (hl0 : 0 ≤ l) (hp : 0 < p) (hpq : p ≤ q)
    (hq : q ≤ 1) : ⌊double (l * p)⌋ ≤ ⌊double (l * q)⌋ ∧ ⌊double (l * q)⌋ ≤ l := by
  have hl0' : (0 : Rat) ≤ l := by exact_mod_cast hl0
  have hmono : double (l * p) ≤ double (l * q) :=
    double_le_double (mul_nonneg hl0' hp.le) (mul_le_mul_of_nonneg_left hpq hl0')
  have hlimit : double (l * q) ≤ l := by
    calc double (l * q) ≤ double l :=
          double_le_double (mul_nonneg hl0' (hp.le.trans hpq)) (mul_le_of_le_one_right hl0' hq)
      _ = l := double_intCast hl
  exact ⟨Int.floor_le_floor hmono, Int.floor_le_iff.mpr (by linarith)⟩

/-- A stop point leaves what is reserved for the call. -/
theorem stopPoint_some {callReserve reply stop : LuaNumber} {budget : Option LuaNumber} {c k : Int}
    (hc : callReserve.Is c) (hc0 : 0 ≤ c) (hrep : callReserve.Representable) (hk : reply.Is k)
    (hk0 : 0 ≤ k) (hks : LuaNumber.Small k) (h : Room.stopPoint callReserve budget reply = some stop) :
    (LuaNumber.int 1).le stop = true ∧ (∀ b, budget = some b → b ≠ .nan → stop.le b = true) ∧
      stop.le (.int (k - c)) = true := by
  -- the stop before the caller's own ceiling is a whole number, or at most 0
  have hstop : (reply.sub callReserve).floor = .int (k - c) ∨
      (reply.sub callReserve).floor.le (.int 0) = true := by
    rcases le_or_gt c (2 ^ 53) with hle | hgt
    · have hcs : LuaNumber.Small c := LuaNumber.small_of_le hle hc0 (by norm_num)
      left
      refine (hk.sub hc hks hcs ?_).floor ?_ <;>
      · have := abs_le.mp hks
        exact abs_le.mpr ⟨by omega, by omega⟩
    · right
      have hkc : (LuaNumber.int k).le callReserve = true :=
        ((LuaNumber.is_int k).le_iff hc).mpr (((le_abs_self k).trans hks).trans hgt.le)
      exact LuaNumber.floor_le_zero (hk.sub_le_zero hk0 hks hkc hrep)
  have hself : ∀ v : LuaNumber, v ≠ .nan → v.le v = true := fun v hv =>
    LuaNumber.le_iff_extended.mpr ⟨hv, hv, le_rfl⟩
  have hone : ∀ v : LuaNumber, v ≠ .nan → v.lt (.int 1) = false → (LuaNumber.int 1).le v = true :=
    fun v hv hlt => LuaNumber.le_of_not_lt' hv nofun hlt
  unfold Room.stopPoint at h
  generalize (reply.sub callReserve).floor = base at hstop h
  cases budget with
  | none =>
      rcases hstop with rfl | hzero
      · simp only at h
        split at h
        · cases h
        · rename_i hlt
          cases h
          exact ⟨hone _ nofun (Bool.eq_false_iff.mpr hlt), nofun, hself _ nofun⟩
      · simp only [lt_one hzero, if_true] at h
        cases h
  | some b =>
      simp only at h
      by_cases hb : b.lt base = true
      · obtain ⟨hbnan, -, -⟩ := LuaNumber.lt_iff_extended.mp hb
        rw [if_pos hb] at h
        rcases hstop with rfl | hzero
        · split at h
          · cases h
          · rename_i hlt
            cases h
            refine ⟨hone _ hbnan (Bool.eq_false_iff.mpr hlt), fun b' hb' _ => ?_,
              LuaNumber.le_of_lt' hb⟩
            cases hb'
            exact hself _ hbnan
        · have hbzero := LuaNumber.le_trans' (LuaNumber.le_of_lt' hb) hzero
          rw [lt_one hbzero, if_pos rfl] at h
          cases h
      · rw [if_neg hb] at h
        rcases hstop with rfl | hzero
        · split at h
          · cases h
          · rename_i hlt
            cases h
            refine ⟨hone _ nofun (Bool.eq_false_iff.mpr hlt), fun b' hb' hbnan => ?_, hself _ nofun⟩
            cases hb'
            exact LuaNumber.le_of_not_lt' hbnan nofun (Bool.eq_false_iff.mpr hb)
        · rw [lt_one hzero, if_pos rfl] at h
          cases h

end

/-! ### Rooms -/

section

variable {tostring : Lua → String} {port : Port} {opts : RoomOpts} {r : Room}

/-- The default shares are shares. -/
theorem isShare_default :
    IsShare DEFAULT_RESULT_SHARE (1 / 4) ∧ IsShare DEFAULT_BEAT_SHARE (1 / 2) := by
  refine ⟨⟨.inl rfl, ?_, ?_⟩, ⟨.inl rfl, ?_, ?_⟩⟩ <;> norm_num

/-- The numbers of a profile with a small window. -/
theorem names_exact {profile : Lua} {window output : LuaNumber} (h : Names profile window output)
    (hw : window.floor.le (.int (2 ^ 53)) = true) :
    ∃ w o, window.floor = .int w ∧ output.floor = .int o ∧ LuaNumber.Small w ∧ 0 ≤ o ∧ o < w := by
  obtain ⟨-, w, hwindow, hw1⟩ := wholeAtLeast_eq_some.mp h.contextWindow
  have hws : LuaNumber.Small w := by
    rw [LuaNumber.Small, abs_of_nonneg (by omega)]
    exact (hwindow.floor_is.le_iff (LuaNumber.is_int _)).mp hw
  have houtput : ∃ o, output.Is o ∧ 0 ≤ o := by
    rcases h.maxOutput with ⟨-, rfl⟩ | hout
    · exact ⟨0, LuaNumber.is_int 0, le_rfl⟩
    · exact (wholeAtLeast_eq_some.mp hout).2
  obtain ⟨o, ho, ho0⟩ := houtput
  have how : o < w := by
    refine not_le.mp fun hle => ?_
    have hlt := h.lt
    rw [(hwindow.le_iff ho).mpr hle] at hlt
    cases hlt
  exact ⟨w, o, hwindow.floor hws, ho.floor (LuaNumber.small_of_le how.le ho0 hws), hws, ho0, how⟩

/-- The number an option gives is one Lua has. -/
theorem numberOr_reserve (opts : RoomOpts)
    (h : (opts.reserve.isNil || (wholeAtLeast opts.reserve 0).isSome) = true) :
    ∃ n, (numberOr opts.reserve (.int 0)).Is n ∧ 0 ≤ n ∧
      (numberOr opts.reserve (.int 0)).Representable := by
  have hrep := opts.representable
  cases hv : opts.reserve with
  | nil => exact ⟨0, LuaNumber.is_int 0, le_rfl, by constructor <;> norm_num⟩
  | num m =>
      rw [hv] at h
      obtain ⟨k, hk⟩ := Option.isSome_iff_exists.mp h
      obtain ⟨hm, n, hn, hn0⟩ := wholeAtLeast_eq_some.mp hk
      cases hm
      exact ⟨n, hn, hn0, hrep m (by simp [hv])⟩
  | _ =>
      rw [hv] at h
      cases h

theorem order_default : DEFAULT_BEAT_SHARE.lt DEFAULT_RESULT_SHARE = false := by
  refine LuaNumber.not_lt_of_le' (decide_eq_true ?_)
  norm_num

/-- The room a split is read off. -/
theorem room_of_built {left back : LuaNumber} (h : Built tostring port opts r left back)
    (representable) :
    ∃ r', room tostring port { conf := opts.conf, reserve := opts.reserve, representable } = .ok r' ∧
      r'.profile = r.profile ∧ r'.window = r.window ∧ r'.maxOutput = r.maxOutput ∧
      r'.limit = r.limit ∧ r'.held = r.held := by
  have hnone : isShare .nil = true := rfl
  have hcall : (Lua.nil.isNil || (wholeAtLeast .nil 0).isSome) = true := rfl
  have horder : (!(numberOr .nil DEFAULT_BEAT_SHARE).lt
      (numberOr .nil DEFAULT_RESULT_SHARE)) = true := by
    show (!DEFAULT_BEAT_SHARE.lt DEFAULT_RESULT_SHARE) = true
    rw [order_default]
    rfl
  simp only [room, check_pass h.conf, check_pass h.reserve, check_pass hnone, check_pass hcall,
    check_pass horder, h.profile, h.split, h.limits, bind, Except.bind]
  exact ⟨_, rfl, rfl, rfl, rfl, h.limit.symm, h.held.symm⟩

theorem split_ok (used : Lua) (hused : (used.isNil || (wholeAtLeast used 0).isSome) = true) :
    r.split tostring used =
      match used with
      | .num n => do
          let room ← replyRoom tostring r.profile "room:split" n
          .ok ⟨r.window, r.maxOutput, r.limit, r.held, some room⟩
      | _ => .ok ⟨r.window, r.maxOutput, r.limit, r.held, none⟩ := by
  unfold Room.split
  rw [check_pass hused]
  cases used <;> rfl

/-- **The readings of a room agree.** -/
theorem room_agrees (h : room tostring port opts = .ok r) : Agrees tostring port opts r := by
  obtain ⟨left, back, hbuilt⟩ := room_ok h
  have hreply : ∀ used who, ∃ reply, r.reply tostring used = .ok reply ∧
      replyRoom tostring r.profile who used = .ok reply := fun used who =>
    ⟨_, replyRoom_ok hbuilt.split, replyRoom_ok hbuilt.split⟩
  refine ⟨fun used n hused => ?_, fun callReserve hcall used budget => ?_, fun used hused => ?_⟩
  · obtain ⟨reply, hr, hsplit⟩ := hreply n "room:split"
    obtain ⟨rfl, -⟩ := wholeAtLeast_eq_some.mp hused
    refine ⟨reply, ⟨r.window, r.maxOutput, r.limit, r.held, some reply⟩, hr, ?_, rfl⟩
    rw [split_ok _ (by rw [hused]; rfl)]
    simp only [hsplit, bind, Except.bind]
  · obtain ⟨reply, hr, -⟩ := hreply used ""
    refine ⟨reply, hr, ?_⟩
    rw [Room.thinkingStop, hcall]
    simp only [hr, bind, Except.bind]
  · have hcheck : (used.isNil || (wholeAtLeast used 0).isSome) = true := by
      rcases hused with hsome | rfl
      · rw [hsome, Bool.or_true]
      · rfl
    obtain ⟨r', hr', hprofile, hwindow, houtput, hlimit, hheld⟩ := room_of_built hbuilt
      fun n hn => opts.representable n (by simp_all)
    simp only [split, check_pass hbuilt.conf, check_pass hbuilt.reserve, check_pass hcheck, hr',
      bind, Except.bind]
    rw [split_ok _ hcheck, split_ok _ hcheck, hprofile, hwindow, houtput, hlimit, hheld]

theorem divides_of_small (h : room tostring port opts = .ok r)
    (hw : r.window.le (.int (2 ^ 53)) = true) (hnan : NoNaN opts) :
    ∃ w o h l n, Divides tostring opts r w o h l n := by
  obtain ⟨left, back, hbuilt⟩ := room_ok h
  obtain ⟨window, output, hnames, hwo⟩ := profileSplit_ok.mp hbuilt.split
  obtain ⟨hwindow, houtput⟩ := Prod.mk.inj hwo
  obtain ⟨w, o, hw', ho', hws, ho0, how⟩ := names_exact hnames (hwindow ▸ hw)
  rw [hw'] at hwindow
  rw [ho'] at houtput
  obtain ⟨n, hn, hn0, hrep⟩ := numberOr_reserve opts hbuilt.reserve
  obtain ⟨window', output', hsplit, hleft, hlt⟩ := requestLimit_ok hbuilt.limits
  rw [hbuilt.split, hwindow, houtput] at hsplit
  cases hsplit
  obtain ⟨rfl, rfl⟩ := Prod.mk.inj hleft
  -- the subtractions are of integers within 2^53, so none of them rounds
  obtain ⟨hheld, hlimit, hpos⟩ := limit_exact hws ho0 how hn0 hn hrep hlt
  have hsmall : ∀ k : Int, 0 ≤ k → k ≤ w → LuaNumber.Small k := fun k hlo hhi =>
    LuaNumber.small_of_le hhi hlo hws
  have hls : LuaNumber.Small (w - o - max 0 (n - o)) := hsmall _ (by omega) (by omega)
  obtain ⟨p, hp⟩ := isShare_number hbuilt.resultShare hnan.1 isShare_default.1
  obtain ⟨q, hq⟩ := isShare_number hbuilt.beatShare hnan.2 isShare_default.2
  have hpq := share_le_share hp hq hbuilt.order
  have hfloors := floor_le_floor_share hls (by omega) hp.2.1 hpq hq.2.2
  have hreply : ∀ used u, used.Is u → 0 ≤ u → u ≤ w - o - max 0 (n - o) →
      ∃ reply, r.reply tostring used = .ok reply ∧
        reply.Is (if 0 < o ∧ o < w - u then o else w - u) := by
    intro used u hused hu hul
    have hr := @replyRoom_ok _ _ _ "room:reply" _ _ used hbuilt.split
    rw [hwindow, houtput] at hr
    exact ⟨_, hr, reply_exact hws hused hu (by omega)⟩
  refine ⟨w, o, max 0 (n - o), w - o - max 0 (n - o), n, ?_⟩
  constructor
  · exact hwindow
  · exact houtput
  · rw [hbuilt.held]
    exact hheld.floor (hsmall _ (by omega) (by omega))
  · rw [hbuilt.limit]
    exact hlimit.floor hls
  · exact hn
  · exact hpos
  · omega
  · refine ⟨_, _, ?_, ?_, hfloors⟩
    · rw [hbuilt.resultLimit]
      exact floor_mul_share hls (by omega) hlimit hp
    · rw [hbuilt.beatBudget]
      exact floor_mul_share hls (by omega) hlimit hq
  · intro used u hused hu hul
    obtain ⟨reply, hr, hk⟩ := hreply used u hused hu hul
    refine ⟨reply, _, hr, hk, ?_⟩
    split <;> omega
  · intro used u hused hu hul budget stop hstop
    obtain ⟨reply, hr, hk⟩ := hreply used u hused hu hul
    have hks : 0 ≤ (if 0 < o ∧ o < w - u then o else w - u) ∧
        (if 0 < o ∧ o < w - u then o else w - u) ≤ w := by
      split <;> omega
    cases hcall : r.callReserve with
    | none =>
        rw [Room.thinkingStop, hcall] at hstop
        cases hstop
    | some callReserve =>
        rw [Room.thinkingStop, hcall] at hstop
        simp only [hr, bind, Except.bind] at hstop
        -- a stop point is given only where a reserve for the call was set
        obtain ⟨hv, c, hc, hc0⟩ := wholeAtLeast_eq_some.mp (hbuilt.callReserve ▸ hcall)
        have hcrep := opts.representable callReserve (by simp [hv])
        obtain ⟨hone, hbudget, hleaves⟩ := stopPoint_some hc hc0 hcrep hk hks.1
          (hsmall _ hks.1 hks.2) (Except.ok.inj hstop)
        exact ⟨hone, hbudget, callReserve, c, reply, _, rfl, hc, hr, hk, hleaves⟩

end

/-! ### Where it is rounded -/

/-- A Port that puts no cap on a reply. -/
def uncapped (window : LuaNumber) : Port where
  count := fun _ _ => .ok (.num (.int 0))
  profile := fun _ => .ok (Lua.record [("context_window", .num window)])

/-- A room with these shares, and nothing reserved. -/
def shared (resultShare beatShare : LuaNumber) (hr : resultShare.Representable)
    (hb : beatShare.Representable) : RoomOpts where
  resultShare := .num resultShare
  beatShare := .num beatShare
  callReserve := .num (.int 0)
  representable := by
    intro n hn
    simp only [List.mem_cons, Lua.num.injEq, reduceCtorEq, List.not_mem_nil, false_or,
      or_false] at hn
    rcases hn with rfl | rfl | rfl
    · exact hr
    · exact hb
    · constructor <;> norm_num

/-- The room they make over a window with no cap. -/
def uncappedRoom (w : Int) (resultShare beatShare : LuaNumber) : Room where
  port := uncapped (.int w)
  conf := .nil
  profile := Lua.record [("context_window", .num (.int w))]
  window := .int w
  maxOutput := .int 0
  limit := .int w
  held := .int 0
  reserve := .int 0
  resultShare
  resultLimit := ((LuaNumber.int w).mul resultShare).floor
  beatShare
  beatBudget := ((LuaNumber.int w).mul beatShare).floor
  callReserve := some (.int 0)

/-- One tenth, as a float. -/
def tenth : Rat := 3602879701896397 / 36028797018963968

section

variable {tostring : Lua → String} {opts : RoomOpts} {w : Int}

theorem sub_zero_int (hw : 0 ≤ w) (hlt : w < 2 ^ 63) :
    (LuaNumber.int w).sub (.int 0) = .int w := by
  show LuaNumber.int ((w - 0).bmod (2 ^ 64)) = _
  rw [sub_zero, Int.bmod_eq_of_le (by omega) (by omega)]

theorem uncapped_split (tostring : Lua → String) (who : String) (hw : 1 ≤ w) :
    profileSplit tostring (Lua.record [("context_window", .num (.int w))]) who =
      .ok (.int w, .int 0) := by
  refine profileSplit_ok.mpr ⟨.int w, .int 0, ⟨rfl, ?_, .inl ⟨rfl, rfl⟩, ?_⟩, rfl⟩
  · exact wholeAtLeast_eq_some.mpr ⟨rfl, w, LuaNumber.is_int w, hw⟩
  · exact decide_eq_false (by omega)

theorem uncapped_room (tostring : Lua → String) (resultShare beatShare : LuaNumber)
    (hr' : resultShare.Representable) (hb' : beatShare.Representable) (hw : 1 ≤ w) (hlt : w < 2 ^ 63)
    (hr : isShare (.num resultShare) = true) (hb : isShare (.num beatShare) = true)
    (horder : beatShare.lt resultShare = false) :
    room tostring (uncapped (.int w)) (shared resultShare beatShare hr' hb') =
      .ok (uncappedRoom w resultShare beatShare) := by
  have hlimits : requestLimit tostring (Lua.record [("context_window", .num (.int w))])
      "policy.room" (.int 0) = .ok (.int w, .int 0) := by
    have hside := sub_zero_int (show 0 ≤ w by omega) hlt
    have hheld : (LuaNumber.int 0).max ((LuaNumber.int 0).sub (.int 0)) = .int 0 := rfl
    have hone : (LuaNumber.int 1).le (.int w) = true := decide_eq_true hw
    simp only [requestLimit, uncapped_split tostring _ hw, bind, Except.bind, hside, hheld]
    rw [LuaNumber.not_lt_of_le' hone]
    rfl
  have hnone : (Lua.nil.isNil || (wholeAtLeast .nil 0).isSome) = true := rfl
  have hzero : wholeAtLeast (.num (.int 0)) 0 = some (.int 0) := rfl
  simp only [room, shared, numberOr, check_pass hr, check_pass hb, horder, uncapped,
    check_pass (show (Lua.nil.isNil || Lua.nil.isTable) = true from rfl), check_pass hnone,
    check_pass (show (!false) = true from rfl), uncapped_split tostring _ hw, hlimits, hzero, bind,
    Except.bind]
  rfl

theorem uncapped_reply {resultShare beatShare used : LuaNumber} (hw : 1 ≤ w) :
    (uncappedRoom w resultShare beatShare).reply tostring used =
      .ok ((LuaNumber.int w).sub used) := by
  rw [Room.reply, uncappedRoom, replyRoom_ok (uncapped_split tostring "" hw)]
  rfl

theorem isShare_shares :
    isShare (.num (.float (1 / 4))) = true ∧ isShare (.num (.float (1 / 2))) = true := by
  norm_num [isShare, LuaNumber.le, LuaNumber.lt, LuaNumber.eq]

/-- A limit beside a share of one, where the two nearest floats are even and
odd. -/
theorem whole_share :
    ((LuaNumber.int (2 ^ 53 + 3)).mul (.float 1)).floor = .int (2 ^ 53 + 4) := by
  have hplace : ∀ q : Rat, 2 ^ 53 ≤ q → q < 2 ^ 54 → place q = 1 := fun q hlo hhi =>
    @place_eq q 53 (by norm_num) (by exact_mod_cast hlo) (by exact_mod_cast hhi)
  have hlimit : double (2 ^ 53 + 3) = 2 ^ 53 + 4 := by
    rw [double, ulp, hplace _ (by norm_num) (by norm_num)]
    norm_num [nearest, Int.fract]
  have hproduct : double (2 ^ 53 + 4) = 2 ^ 53 + 4 := by
    rw [double, ulp, hplace _ (by norm_num) (by norm_num)]
    norm_num [nearest, Int.fract]
  have hfinite : |(2 ^ 53 + 4 : Rat)| < 2 ^ 1024 := by
    have hpow : (2 : Rat) ^ 54 < 2 ^ 1024 := pow_lt_pow_right₀ one_lt_two (by norm_num)
    rw [abs_of_pos (by norm_num)]
    exact lt_trans (by norm_num) hpow
  have hfloat : (LuaNumber.int (2 ^ 53 + 3)).toFloat = .float (2 ^ 53 + 4) := by
    have hcast : ((2 ^ 53 + 3 : Int) : Rat) = 2 ^ 53 + 3 := by norm_num
    show LuaNumber.ofRat ((2 ^ 53 + 3 : Int) : Rat) = _
    rw [hcast, LuaNumber.ofRat, hlimit, if_pos hfinite]
  have hone : (LuaNumber.float 1).toFloat = .float 1 := rfl
  simp only [LuaNumber.mul, LuaNumber.arith, hfloat, hone]
  show (LuaNumber.ofRat ((2 ^ 53 + 4) * 1)).floor = _
  rw [mul_one, LuaNumber.ofRat, hproduct, if_pos hfinite]
  norm_num [LuaNumber.floor]

/-- What a reply is left beside a tenth of a token. -/
theorem beside_tenth : (LuaNumber.int 32768).sub (.float tenth) =
    .float (9007171766950298 / 2 ^ 38) := by
  have hdouble : double (32768 - tenth) = 9007171766950298 / 2 ^ 38 := by
    have hplace : place (32768 - tenth) = -38 :=
      @place_eq _ 14 (by norm_num) (by norm_num [tenth]) (by norm_num [tenth])
    rw [double, ulp, hplace]
    norm_num [nearest, Int.fract, tenth]
  have hfinite : |(9007171766950298 / 2 ^ 38 : Rat)| < 2 ^ 1024 := by
    have hpow : (2 : Rat) ^ 54 < 2 ^ 1024 := pow_lt_pow_right₀ one_lt_two (by norm_num)
    rw [abs_of_pos (by norm_num)]
    exact lt_trans (by norm_num) hpow
  have hfloat := (LuaNumber.is_int 32768).toFloat (by norm_num)
  have htenth : (LuaNumber.float tenth).toFloat = .float tenth := rfl
  simp only [LuaNumber.sub, LuaNumber.arith, hfloat, htenth]
  show LuaNumber.ofRat (32768 - tenth) = _
  rw [LuaNumber.ofRat, hdouble, if_pos hfinite]

/-- Beyond `2 ^ 53` a beat may take more than the limit; a reply beside a part
of a token goes over the window; and NaN passes for a share and for a budget. -/
theorem division_rounds :
    (∃ r, room (fun _ => "") (uncapped (.int (2 ^ 53 + 3)))
        (shared (.float (1 / 4)) (.float 1) trivial trivial) = .ok r ∧
      r.beatBudget.le r.limit = false) ∧
    (∃ r reply, room (fun _ => "") (uncapped (.int 32768))
        (shared (.float (1 / 4)) (.float (1 / 2)) trivial trivial) = .ok r ∧
      (LuaNumber.float tenth).le r.limit = true ∧
      r.reply (fun _ => "") (.float tenth) = .ok (.float reply) ∧
      r.window = .int 32768 ∧ 32768 < tenth + reply) ∧
    (∃ r, room (fun _ => "") (uncapped (.int 32768))
        (shared .nan (.float (1 / 2)) trivial trivial) = .ok r ∧
      r.resultLimit.le r.beatBudget = false) ∧
    (∃ r stop, room (fun _ => "") (uncapped (.int 32768))
        (shared (.float (1 / 4)) (.float (1 / 2)) trivial trivial) = .ok r ∧
      r.thinkingStop (fun _ => "") (.int 0) (some .nan) = .ok (some stop) ∧
      stop.le .nan = false) := by
  have hquarter := isShare_shares.1
  have hhalf := isShare_shares.2
  have hone : isShare (.num (.float 1)) = true := by
    norm_num [isShare, LuaNumber.le, LuaNumber.lt, LuaNumber.eq]
  have horder : (LuaNumber.float 1).lt (.float (1 / 4)) = false := by
    norm_num [LuaNumber.le, LuaNumber.lt]
  have hplain := @uncapped_room 32768 (fun _ => "") (.float (1 / 4)) (.float (1 / 2)) trivial trivial
    (by norm_num) (by norm_num) hquarter hhalf order_default
  refine ⟨?_, ?_, ?_, ?_⟩
  · refine ⟨_, @uncapped_room (2 ^ 53 + 3) (fun _ => "") (.float (1 / 4)) (.float 1) trivial trivial
      (by norm_num) (by norm_num) hquarter hone horder, ?_⟩
    show ((LuaNumber.int (2 ^ 53 + 3)).mul (.float 1)).floor.le (.int (2 ^ 53 + 3)) = false
    rw [whole_share]
    rfl
  · refine ⟨_, 9007171766950298 / 2 ^ 38, hplain, ?_, ?_, rfl, ?_⟩
    · norm_num [uncappedRoom, LuaNumber.le, tenth]
    · rw [uncapped_reply (by norm_num), beside_tenth]
    · norm_num [tenth]
  · have hnan : (LuaNumber.int 32768).mul .nan = .nan := by
      have hfloat := (LuaNumber.is_int 32768).toFloat (by norm_num)
      have hnan : LuaNumber.nan.toFloat = .nan := rfl
      simp only [LuaNumber.mul, LuaNumber.arith, hfloat, hnan]
      rfl
    refine ⟨_, @uncapped_room 32768 (fun _ => "") .nan (.float (1 / 2)) trivial trivial
      (by norm_num) (by norm_num) rfl hhalf rfl, ?_⟩
    show ((LuaNumber.int 32768).mul .nan).floor.le _ = false
    rw [hnan]
    rfl
  · refine ⟨_, .int 32768, hplain, ?_, rfl⟩
    show ((uncappedRoom 32768 _ _).reply _ _ >>= _) = _
    rw [uncapped_reply (by norm_num)]
    rfl

/-- **The division of a room.**  Its readings agree whatever the options are.  The
sums hold where the window is one up to which a double holds every integer, and the
shares that were given are numbers: past that, a share is rounded. -/
theorem room_divides {port : Port} {r : Room} (h : room tostring port opts = .ok r) :
    Agrees tostring port opts r ∧
      (r.window.le (.int (2 ^ 53)) = true → NoNaN opts →
        ∃ w o h l n, Divides tostring opts r w o h l n) :=
  ⟨room_agrees h, divides_of_small h⟩

/-- A Port with a cap on the reply. -/
def cappedPort : Port where
  count := fun _ _ => .ok (.num (.int 0))
  profile := fun _ =>
    .ok (Lua.record [("context_window", .num (.int 32768)), ("max_output", .num (.int 4096))])

/-- What a reply may take is reserved beyond the cap, and of it what a call may. -/
def reserving : RoomOpts where
  reserve := .num (.int 8192)
  callReserve := .num (.int 512)
  representable := by
    intro n hn
    simp only [List.mem_cons, Lua.num.injEq, reduceCtorEq, List.not_mem_nil, false_or,
      or_false] at hn
    rcases hn with rfl | rfl <;> constructor <;> norm_num

theorem room_divides_capped : ∃ r, room (fun _ => "") cappedPort reserving = .ok r ∧
    r.limit = .int 24576 ∧ r.held = .int 4096 ∧
      ∃ w o h l n, Divides (fun _ => "") reserving r w o h l n := by
  have hsplit : profileSplit (fun _ => "") (Lua.record [("context_window", .num (.int 32768)),
      ("max_output", .num (.int 4096))]) "policy.room" = .ok (.int 32768, .int 4096) := rfl
  have hlimits : requestLimit (fun _ => "") (Lua.record [("context_window", .num (.int 32768)),
      ("max_output", .num (.int 4096))]) "policy.room" (.int 8192) =
        .ok (.int 24576, .int 4096) := rfl
  have hwhole : (Lua.isNil (.num (.int 8192)) || (wholeAtLeast (.num (.int 8192)) 0).isSome) = true ∧
      (Lua.isNil (.num (.int 512)) || (wholeAtLeast (.num (.int 512)) 0).isSome) = true :=
    ⟨rfl, rfl⟩
  have horder : DEFAULT_BEAT_SHARE.lt DEFAULT_RESULT_SHARE = false := order_default
  have hroom : ∃ r, room (fun _ => "") cappedPort reserving = .ok r ∧
      r.limit = .int 24576 ∧ r.held = .int 4096 ∧ r.window = .int 32768 := by
    simp only [room, reserving, cappedPort, numberOr, check_pass hwhole.1, check_pass hwhole.2,
      check_pass (show (Lua.nil.isNil || Lua.nil.isTable) = true from rfl),
      check_pass (show isShare .nil = true from rfl), horder,
      check_pass (show (!false) = true from rfl), hsplit, hlimits, bind, Except.bind]
    exact ⟨_, rfl, rfl, rfl, rfl⟩
  obtain ⟨r, hr, hlimit, hheld, hwindow⟩ := hroom
  exact ⟨r, hr, hlimit, hheld, (room_divides hr).2 (by rw [hwindow]; rfl) ⟨nofun, nofun⟩⟩

end

end AgentBlock.Policy
