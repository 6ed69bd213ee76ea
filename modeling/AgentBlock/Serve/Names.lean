/-
AgentBlock/Serve/Names.lean

Whether the tools and the handler name the same thing.

`names_alike_iff` — they do exactly for the names a percent encoding leaves as
they are, the two dot segments aside: the handler compares what was encoded, and
a URL parser drops a dot segment.
-/
import AgentBlock.Serve.Jobs
import Mathlib.Data.Fintype.Basic

namespace AgentBlock.Serve

/-! ### The way of a request -/

/-- The path of these segments. -/
def joined (segs : List Bytes) : Bytes := segs.flatMap fun s => 47 :: s

/-- The segments that a URL parser reads as "here" and "one up". -/
def dotSegments : List Bytes :=
  [bytes ".", bytes "%2e", bytes "%2E", bytes "..", bytes ".%2e", bytes ".%2E", bytes "%2e.",
    bytes "%2E.", bytes "%2e%2e", bytes "%2e%2E", bytes "%2E%2e", bytes "%2E%2E"]

/-- What a percent encoding writes. -/
def isEncoded (b : UInt8) : Bool := isUnreserved b ∨ b = 37

/-- How a target comes to the handler: as it was sent, where it is written with
unreserved bytes and percent signs and has no dot segment; no path has one that
comes. -/
structure HandsRaw (hands : Bytes → Bytes × Option Bytes) : Prop where
  keeps : ∀ (segs : List Bytes) (query : Option Bytes), segs ≠ [] →
    (∀ s ∈ segs, s.all isEncoded = true ∧ s ∉ dotSegments) →
    (∀ q ∈ query, q.all (fun b => isEncoded b || b == 38 || b == 61) = true) →
    hands (joined segs ++ query.elim [] (63 :: ·)) = (joined segs, query)
  dotless : ∀ (target : Bytes) (segs : List Bytes), (hands target).1 = joined segs →
    (∀ s ∈ segs, 47 ∉ s) → bytes "." ∉ segs ∧ bytes ".." ∉ segs

/-- Whatever is declared and live, each tool that is given the name is answered
as of that name. -/
structure NamesAlike (hands : Bytes → Bytes × Option Bytes) (n : String) : Prop where
  lists : ∀ (declared live : List Bytes) (args : Obj), args.get? "job" = some (.str n) →
    asks hands declared live "runs_list" args = some (.runs (some (bytes n))
      (((args.get? "limit").bind asU64).map fun limit => bytes (toString limit)))
  gets : ∀ (declared live : List Bytes) (args : Obj), args.get? "run_id" = some (.str n) →
    asks hands declared live "run_get" args = some (.run (bytes n))
  stops : ∀ (declared live : List Bytes) (args : Obj), args.get? "run_id" = some (.str n) →
    asks hands declared live "run_stop" args =
      some (if bytes n ∈ live then .stop (bytes n) else .noLiveRun)
  requests : ∀ (declared live : List Bytes) (args : Obj), args.get? "job" = some (.str n) →
    asks hands declared live "job_run" args =
      some (if bytes n ∈ declared then .request (bytes n) else .noJob)

/-! ### The encoding -/

/-- What holds of the sixteen digits holds of each. -/
theorem of_all_digits {p : UInt8 → Bool}
    (h : (List.range 16).all (fun n => p (UInt8.ofNat n)) = true) {n : UInt8} (hn : n < 16) :
    p n = true := by
  have hp := List.all_eq_true.mp h n.toNat (List.mem_range.mpr (UInt8.lt_iff_toNat_lt.mp hn))
  rwa [UInt8.ofNat_toNat] at hp

theorem digits_lt (b : UInt8) : b / 16 < 16 ∧ b % 16 < 16 := by
  have hb := b.toNat_lt
  refine ⟨UInt8.lt_iff_toNat_lt.mpr ?_, UInt8.lt_iff_toNat_lt.mpr ?_⟩
  · rw [UInt8.toNat_div]
    exact Nat.div_lt_of_lt_mul hb
  · rw [UInt8.toNat_mod]
    exact Nat.mod_lt _ (by decide)

theorem isUnreserved_hexDigit {n : UInt8} (h : n < 16) : isUnreserved (hexDigit n) = true :=
  of_all_digits (p := fun n => isUnreserved (hexDigit n)) (by decide) h

theorem isEncoded_of_isUnreserved {b : UInt8} (h : isUnreserved b = true) : isEncoded b = true :=
  decide_eq_true (.inl h)

theorem all_isEncoded_encodeByte (b : UInt8) : (encodeByte b).all isEncoded = true := by
  rw [encodeByte]
  split
  · next hb => rw [List.all_cons, isEncoded_of_isUnreserved hb, List.all_nil, Bool.and_self]
  · obtain ⟨hhigh, hlow⟩ := digits_lt b
    simp only [List.all_cons, List.all_nil, Bool.and_true, Bool.and_eq_true]
    exact ⟨rfl, isEncoded_of_isUnreserved (isUnreserved_hexDigit hhigh),
      isEncoded_of_isUnreserved (isUnreserved_hexDigit hlow)⟩

/-- A byte that is encoded does not become a dot's encoding. -/
theorem encodeByte_not_dot (b : UInt8) :
    encodeByte b ≠ bytes "%2e" ∧ encodeByte b ≠ bytes "%2E" := by
  obtain ⟨hhigh, hlow⟩ := digits_lt b
  have hsmall : bytes "%2e" = [37, 50, 101] := by decide
  have hlarge : bytes "%2E" = [37, 50, 69] := by decide
  rw [hsmall, hlarge, encodeByte]
  split
  · exact ⟨nofun, nofun⟩
  · next hb =>
      constructor
      · intro h
        -- no digit is a small letter
        have hdigit := of_all_digits (p := fun n => hexDigit n ≠ 101) (by decide) hlow
        obtain ⟨-, h⟩ := List.cons.inj h
        obtain ⟨-, h⟩ := List.cons.inj h
        exact of_decide_eq_true hdigit (List.cons.inj h).1
      · intro h
        obtain ⟨-, h⟩ := List.cons.inj h
        obtain ⟨htwo, h⟩ := List.cons.inj h
        obtain ⟨hfourteen, -⟩ := List.cons.inj h
        have hhigh' : b / 16 = 2 := by
          have h := of_all_digits (p := fun n => hexDigit n = 50 → n = 2) (by decide) hhigh
          exact of_decide_eq_true h htwo
        have hlow' : b % 16 = 14 := by
          have h := of_all_digits (p := fun n => hexDigit n = 69 → n = 14) (by decide) hlow
          exact of_decide_eq_true h hfourteen
        -- the digits are those of a dot, which is unreserved
        have hdot : b = 46 := by
          apply UInt8.toNat_inj.mp
          have h1 := congrArg UInt8.toNat hhigh'
          have h2 := congrArg UInt8.toNat hlow'
          rw [UInt8.toNat_div] at h1
          rw [UInt8.toNat_mod] at h2
          have := Nat.div_add_mod b.toNat 16
          simp at h1 h2 ⊢
          omega
        subst hdot
        exact hb rfl

theorem all_isEncoded_encode (s : Bytes) : (encode s).all isEncoded = true := by
  rw [encode, List.all_flatMap]
  exact List.all_eq_true.mpr fun b _ => all_isEncoded_encodeByte b

theorem encode_cons (b : UInt8) (s : Bytes) : encode (b :: s) = encodeByte b ++ encode s := rfl

/-- What is unreserved is encoded as it is. -/
theorem encode_of_unreserved {s : Bytes} (h : ∀ b ∈ s, isUnreserved b = true) : encode s = s := by
  induction s with
  | nil => rfl
  | cons b s ih =>
      rw [encode_cons, encodeByte, if_pos (h b List.mem_cons_self),
        ih fun c hc => h c (List.mem_cons_of_mem b hc)]
      rfl

/-- What is not, leaves a percent sign. -/
theorem unreserved_of_encode {s : Bytes} (h : 37 ∉ encode s) :
    ∀ b ∈ s, isUnreserved b = true := by
  intro b hb
  by_contra hreserved
  apply h
  refine List.mem_flatMap.mpr ⟨b, hb, ?_⟩
  rw [encodeByte, if_neg hreserved]
  exact List.mem_cons_self

theorem length_le_encode (s : Bytes) : s.length ≤ (encode s).length := by
  induction s with
  | nil => exact Nat.le_refl 0
  | cons b s ih =>
      rw [encode_cons, List.length_append, List.length_cons, Nat.add_comm]
      refine Nat.add_le_add ?_ ih
      rw [encodeByte]
      split
      · exact Nat.le_refl 1
      · exact (by decide : 1 ≤ 3)

theorem encode_eq_iff (s : Bytes) : encode s = s ↔ ∀ b ∈ s, isUnreserved b = true := by
  refine ⟨fun h => ?_, encode_of_unreserved⟩
  induction s with
  | nil => nofun
  | cons b s ih =>
      rw [encode_cons, encodeByte] at h
      split at h
      case isTrue hb =>
        rintro c (_ | ⟨_, hc⟩)
        · exact hb
        · exact ih (List.cons.inj h).2 c hc
      case isFalse hb =>
        -- Three bytes in the place of one: the rest would have to shrink.
        have hlength := congrArg List.length h
        have hle := length_le_encode s
        simp only [List.length_append, List.length_cons, List.length_nil] at hlength
        omega

/-- No dot is encoded. -/
theorem encode_ne_dot {s : Bytes} (as : Bytes) {e : UInt8} (bs : Bytes) (he : e = 101 ∨ e = 69)
    (has : 37 ∉ as) : encode s ≠ as ++ 37 :: 50 :: e :: bs := by
  induction as generalizing s with
  | nil =>
      intro h
      cases s with
      | nil => cases h
      | cons b s =>
          have hbyte := encodeByte_not_dot b
          rw [encode_cons] at h
          by_cases hb : isUnreserved b = true
          · rw [encodeByte, if_pos hb] at h
            cases (List.cons.inj h).1
            cases hb
          · rw [encodeByte, if_neg hb] at h hbyte
            simp only [List.cons_append, List.nil_append, List.cons.injEq] at h
            obtain ⟨-, h50, h101, -⟩ := h
            rw [h50, h101] at hbyte
            rcases he with rfl | rfl
            · exact hbyte.1 rfl
            · exact hbyte.2 rfl
  | cons a as ih =>
      intro h
      cases s with
      | nil => cases h
      | cons b s =>
          rw [encode_cons] at h
          by_cases hb : isUnreserved b = true
          · rw [encodeByte, if_pos hb] at h
            exact ih (fun h => has (List.mem_cons_of_mem a h)) (List.cons.inj h).2
          · rw [encodeByte, if_neg hb] at h
            exact has ((List.cons.inj h).1 ▸ List.mem_cons_self)

/-- Of the dot segments a name becomes only those that are names. -/
theorem dot_of_encode {s : Bytes} (h : encode s ∈ dotSegments) :
    s = bytes "." ∨ s = bytes ".." := by
  have hself : 37 ∉ encode s → encode s = s :=
    fun hpercent => encode_of_unreserved (unreserved_of_encode hpercent)
  have hone : ∀ e : UInt8, ∀ bs, e = 101 ∨ e = 69 → encode s ≠ 37 :: 50 :: e :: bs :=
    fun e bs he => encode_ne_dot [] bs he (by decide)
  have htwo : ∀ e : UInt8, ∀ bs, e = 101 ∨ e = 69 → encode s ≠ 46 :: 37 :: 50 :: e :: bs :=
    fun e bs he => encode_ne_dot [46] bs he (by decide)
  simp only [dotSegments, List.mem_cons, List.not_mem_nil, or_false] at h
  rcases h with h | h | h | h | h | h | h | h | h | h | h | h
  · exact Or.inl ((hself (h ▸ by decide)).symm.trans h)
  · exact absurd h (hone _ _ (Or.inl rfl))
  · exact absurd h (hone _ _ (Or.inr rfl))
  · exact Or.inr ((hself (h ▸ by decide)).symm.trans h)
  · exact absurd h (htwo _ _ (Or.inl rfl))
  · exact absurd h (htwo _ _ (Or.inr rfl))
  · exact absurd h (hone _ _ (Or.inl rfl))
  · exact absurd h (hone _ _ (Or.inr rfl))
  · exact absurd h (hone _ _ (Or.inl rfl))
  · exact absurd h (hone _ _ (Or.inl rfl))
  · exact absurd h (hone _ _ (Or.inr rfl))
  · exact absurd h (hone _ _ (Or.inr rfl))

/-! ### The patterns -/

theorem matchRun_runs (id : Bytes) :
    matchRun (bytes "/runs/" ++ id) = if id ≠ [] ∧ 47 ∉ id then some id else none := by
  rw [matchRun, List.dropPrefix?_append_of_beq id BEq.rfl]

theorem of_matchRun {path id : Bytes} (h : matchRun path = some id) :
    path = joined [bytes "runs", id] ∧ 47 ∉ id := by
  unfold matchRun at h
  split at h
  case h_2 => cases h
  case h_1 rest hrest =>
    obtain ⟨hne, hslash⟩ : id ≠ [] ∧ 47 ∉ id := by
      split at h
      case isTrue hrest => exact Option.some.inj h ▸ hrest
      case isFalse => cases h
    have hid : rest = id := by
      split at h
      · exact Option.some.inj h
      · cases h
    obtain ⟨p, hp, heq⟩ := List.dropPrefix?_eq_some_iff.mp hrest
    refine ⟨?_, hslash⟩
    rw [hp, eq_of_beq heq, hid, joined]
    simp only [List.flatMap_cons, List.flatMap_nil, List.append_nil]
    rfl

theorem matchJob_jobs {job : Bytes} (hne : job ≠ []) (hslash : 47 ∉ job) :
    matchJob (bytes "/jobs/" ++ job ++ bytes "/runs") = some job := by
  have hall : ∀ b ∈ job, decide (b ≠ 47) = true :=
    fun b hb => decide_eq_true fun h => hslash (h ▸ hb)
  have hname : (job ++ bytes "/runs").takeWhile (· ≠ 47) = job := by
    rw [List.takeWhile_append_of_pos hall]
    exact List.append_nil job
  rw [List.append_assoc, matchJob, List.dropPrefix?_append_of_beq _ BEq.rfl]
  simp only [hname, List.drop_left]
  exact if_pos ⟨hne, trivial⟩

/-! ### The query -/

theorem queryPairsFrom_value {v : Bytes} (hv : 38 ∉ v) (k w rest : Bytes) :
    queryPairsFrom (.value k w) (v ++ rest) = queryPairsFrom (.value k (w ++ v)) rest := by
  induction v generalizing w with
  | nil => rw [List.nil_append, List.append_nil]
  | cons b v ih =>
      have hb : b ≠ 38 := fun h => hv (h ▸ List.mem_cons_self)
      have hv' : 38 ∉ v := fun h => hv (List.mem_cons_of_mem b h)
      show (if b = 38 then _ else queryPairsFrom (.value k (w ++ [b])) (v ++ rest)) = _
      rw [if_neg hb, ih hv', List.append_assoc]
      rfl

/-- A query of one pair. -/
theorem queryPairs_one {job : Bytes} (hjob : 38 ∉ job) :
    queryPairs (bytes "job=" ++ job) = [(bytes "job", job)] := by
  show queryPairsFrom (.value (bytes "job") []) job = _
  have h := queryPairsFrom_value hjob (bytes "job") [] []
  rw [List.append_nil] at h
  rw [h]
  rfl

/-- And of two. -/
theorem queryPairs_two {job limit : Bytes} (hjob : 38 ∉ job) (hlimit : 38 ∉ limit) :
    queryPairs (bytes "job=" ++ job ++ bytes "&" ++ (bytes "limit=" ++ limit)) =
      [(bytes "job", job), (bytes "limit", limit)] := by
  have hlast : queryPairsFrom (.value (bytes "limit") []) limit = [(bytes "limit", limit)] := by
    have h := queryPairsFrom_value hlimit (bytes "limit") [] []
    rw [List.append_nil] at h
    rw [h]
    rfl
  rw [List.append_assoc, List.append_assoc]
  show queryPairsFrom (.value (bytes "job") [])
    (job ++ (bytes "&" ++ (bytes "limit=" ++ limit))) = _
  rw [queryPairsFrom_value hjob]
  exact congrArg (_ :: ·) hlast

/-! ### What is handled -/

section

variable {declared live : List Bytes} {path id : Bytes} {query : Option Bytes}

theorem handle_run_iff : handle declared live .get path query = .run id ↔
    matchRun path = some id := by
  unfold handle
  split_ifs with hjobs hruns
  · have hnone : matchRun (bytes "/jobs") = none := by decide
    simp [hjobs.2, hnone]
  · have hnone : matchRun (bytes "/runs") = none := by decide
    simp [hruns.2, hnone]
  · cases matchRun path with
    | none => simp
    | some run => simp

theorem handle_stop (h : matchRun path = some id) :
    handle declared live .delete path query = if id ∈ live then .stop id else .noLiveRun := by
  simp only [handle, reduceCtorEq, false_and, if_false, h]

theorem handle_request (h : matchJob path = some id) :
    handle declared live .post path query = if id ∈ declared then .request id else .noJob := by
  simp only [handle, reduceCtorEq, false_and, if_false, h]

end

/-- The bytes of a number are digits. -/
theorem unreserved_digits (n : ℕ) : ∀ b ∈ bytes (toString n), isUnreserved b = true := by
  intro b hb
  have htext : (toString n).toList = Nat.toDigits 10 n := Nat.toList_repr
  rw [bytes, htext] at hb
  obtain ⟨c, hc, hbc⟩ := List.mem_flatMap.mp hb
  have hdigit := Nat.isDigit_of_mem_toDigits (by decide) (by decide) hc
  simp only [Char.isDigit, Bool.and_eq_true, decide_eq_true_eq] at hdigit
  have hle : c.val.toNat ≤ 57 := hdigit.2
  have hge : 48 ≤ c.val.toNat := hdigit.1
  have hone : String.utf8EncodeChar c = [UInt8.ofNat c.val.toNat] := if_pos (by omega)
  have hdigits : ∀ k < 10, isUnreserved (UInt8.ofNat (48 + k)) = true := by decide
  rw [hone, List.mem_singleton] at hbc
  have hk := hdigits (c.val.toNat - 48) (by omega)
  rw [Nat.add_sub_cancel' hge] at hk
  rw [hbc]
  exact hk

/-! ### The target of a call -/

section

variable {hands : Bytes → Bytes × Option Bytes} {declared live : List Bytes} {args : Obj}
  {n : String}

theorem text_of_get {key : String} (hn : n ≠ "") (h : args.get? key = some (.str n)) :
    text args key = .ok (bytes n) := by
  rw [text, h]
  exact if_neg hn

theorem asks_run_get (hn : n ≠ "") (h : args.get? "run_id" = some (.str n)) :
    asks hands declared live "run_get" args =
      some (handle declared live .get (hands (bytes "/runs/" ++ encode (bytes n))).1
        (hands (bytes "/runs/" ++ encode (bytes n))).2) := by
  have htool : callTool "run_get" args = some ((text args "run_id").map _) := rfl
  rw [asks, htool, text_of_get hn h]
  rfl

theorem asks_run_stop (hn : n ≠ "") (h : args.get? "run_id" = some (.str n)) :
    asks hands declared live "run_stop" args =
      some (handle declared live .delete (hands (bytes "/runs/" ++ encode (bytes n))).1
        (hands (bytes "/runs/" ++ encode (bytes n))).2) := by
  have htool : callTool "run_stop" args = some ((text args "run_id").map _) := rfl
  rw [asks, htool, text_of_get hn h]
  rfl

theorem asks_job_run (hn : n ≠ "") (h : args.get? "job" = some (.str n)) :
    asks hands declared live "job_run" args =
      some (handle declared live .post
        (hands (bytes "/jobs/" ++ encode (bytes n) ++ bytes "/runs")).1
        (hands (bytes "/jobs/" ++ encode (bytes n) ++ bytes "/runs")).2) := by
  have htool : callTool "job_run" args = some ((text args "job").map _) := rfl
  rw [asks, htool, text_of_get hn h]
  rfl

/-- The query for the runs of a job. -/
def queryOf (job : Bytes) (limit : Option ℕ) : Bytes :=
  bytes "job=" ++ job ++
    limit.elim [] fun limit => bytes "&" ++ (bytes "limit=" ++ bytes (toString limit))

theorem asks_runs_list (h : args.get? "job" = some (.str n)) :
    asks hands declared live "runs_list" args =
      some (handle declared live .get
        (hands (bytes "/runs?" ++
          queryOf (encode (bytes n)) ((args.get? "limit").bind asU64))).1
        (hands (bytes "/runs?" ++
          queryOf (encode (bytes n)) ((args.get? "limit").bind asU64))).2) := by
  have htarget : callTool "runs_list" args = some (.ok (.get, bytes "/runs?" ++
      queryOf (encode (bytes n)) ((args.get? "limit").bind asU64))) := by
    show some (Except.ok (Method.get, if runsQuery args = [] then _ else _)) = _
    rw [runsQuery, h]
    cases (args.get? "limit").bind asU64 with
    | none => simp [queryOf, List.intercalate]
    | some limit => simp [queryOf, List.intercalate]
  rw [asks, htarget]

theorem handle_runs {job : Bytes} (hjob : 38 ∉ job) (limit : Option ℕ) :
    handle declared live .get (bytes "/runs") (some (queryOf job limit)) =
      .runs (some job) (limit.map fun limit => bytes (toString limit)) := by
  have hruns : handle declared live .get (bytes "/runs") (some (queryOf job limit)) =
      .runs (queryValue (queryOf job limit) "job") (queryValue (queryOf job limit) "limit") := rfl
  rw [hruns]
  cases limit with
  | none =>
      have hpairs : queryPairs (queryOf job none) = [(bytes "job", job)] := by
        rw [queryOf, Option.elim_none, List.append_nil, queryPairs_one hjob]
      rw [queryValue, queryValue, hpairs]
      rfl
  | some limit =>
      have hlimit : 38 ∉ bytes (toString limit) :=
        fun h => absurd (unreserved_digits limit 38 h) (by decide)
      have hpairs : queryPairs (queryOf job (some limit)) =
          [(bytes "job", job), (bytes "limit", bytes (toString limit))] := by
        rw [queryOf, Option.elim_some, ← List.append_assoc, queryPairs_two hjob hlimit]
      rw [queryValue, queryValue, hpairs]
      rfl

end

/-! ### When they name the same -/

theorem joined_runs (s : Bytes) : joined [bytes "runs", s] = bytes "/runs/" ++ s := by
  show (47 :: bytes "runs") ++ ((47 :: s) ++ []) = _
  rw [List.append_nil]
  rfl

theorem joined_jobs (s : Bytes) :
    joined [bytes "jobs", s, bytes "runs"] = bytes "/jobs/" ++ s ++ bytes "/runs" := by
  show (47 :: bytes "jobs") ++ ((47 :: s) ++ (47 :: bytes "runs" ++ [])) = _
  rw [List.append_nil, List.append_assoc]
  rfl

theorem bytes_inj {m n : String} (h : bytes m = bytes n) : m = n := by
  have hbytes : ∀ s : String, s.toByteArray = (bytes s).toByteArray :=
    fun s => String.utf8Encode_toList.symm
  rw [← String.toByteArray_inj, hbytes m, hbytes n, h]

section

variable {hands : Bytes → Bytes × Option Bytes} {n : String}

/-- A name that is encoded as no dot segment comes to the handler encoded. -/
theorem HandsRaw.of_encoded (hhands : HandsRaw hands)
    (hdots : encode (bytes n) ∉ dotSegments) :
    hands (bytes "/runs/" ++ encode (bytes n)) = (bytes "/runs/" ++ encode (bytes n), none) ∧
      hands (bytes "/jobs/" ++ encode (bytes n) ++ bytes "/runs") =
        (bytes "/jobs/" ++ encode (bytes n) ++ bytes "/runs", none) := by
  have hname := And.intro (all_isEncoded_encode (bytes n)) hdots
  have hruns : (bytes "runs").all isEncoded = true ∧ bytes "runs" ∉ dotSegments := by decide
  have hjobs : (bytes "jobs").all isEncoded = true ∧ bytes "jobs" ∉ dotSegments := by decide
  constructor
  · have h := hhands.keeps [bytes "runs", encode (bytes n)] none (List.cons_ne_nil _ _)
      (List.forall_mem_cons.mpr ⟨hruns, List.forall_mem_singleton.mpr hname⟩) nofun
    rwa [joined_runs, Option.elim_none, List.append_nil] at h
  · have h := hhands.keeps [bytes "jobs", encode (bytes n), bytes "runs"] none
      (List.cons_ne_nil _ _) (List.forall_mem_cons.mpr
        ⟨hjobs, List.forall_mem_cons.mpr ⟨hname, List.forall_mem_singleton.mpr hruns⟩⟩) nofun
    rwa [joined_jobs, Option.elim_none, List.append_nil] at h

/-- The query for the runs of a plain name comes as it is. -/
theorem HandsRaw.of_query (hhands : HandsRaw hands) {job : Bytes} {limit : Option ℕ}
    (hjob : ∀ b ∈ job, isUnreserved b = true) :
    hands (bytes "/runs?" ++ queryOf job limit) = (bytes "/runs", some (queryOf job limit)) := by
  have hplain : ∀ s : Bytes, (∀ b ∈ s, isUnreserved b = true) →
      s.all (fun b => isEncoded b || b == 38 || b == 61) = true := by
    intro s hs
    refine List.all_eq_true.mpr fun b hb => ?_
    rw [isEncoded_of_isUnreserved (hs b hb)]
    rfl
  have hlimit : (limit.elim [] fun limit => bytes "&" ++ (bytes "limit=" ++ bytes (toString limit))
      ).all (fun b => isEncoded b || b == 38 || b == 61) = true := by
    cases limit with
    | none => rfl
    | some limit =>
        rw [Option.elim_some, List.all_append, List.all_append,
          hplain _ (unreserved_digits limit)]
        decide
  have hquery : (queryOf job limit).all (fun b => isEncoded b || b == 38 || b == 61) = true := by
    rw [queryOf, List.all_append, List.all_append, hplain job hjob, hlimit]
    decide
  exact hhands.keeps [bytes "runs"] (some (queryOf job limit)) (List.cons_ne_nil _ _)
    (List.forall_mem_singleton.mpr (by decide)) fun q hq => Option.some.inj hq ▸ hquery

/-- The handler sees a name that is no dot segment. -/
theorem NamesAlike.ne_dot (hhands : HandsRaw hands) (hn : n ≠ "") (h : NamesAlike hands n) :
    n ≠ "." ∧ n ≠ ".." := by
  have hget := h.gets [] [] [("run_id", .str n)] rfl
  rw [asks_run_get hn rfl] at hget
  obtain ⟨hpath, hslash⟩ := of_matchRun (handle_run_iff.mp (Option.some.inj hget))
  have hsegs : ∀ s ∈ [bytes "runs", bytes n], 47 ∉ s :=
    List.forall_mem_cons.mpr ⟨by decide, List.forall_mem_singleton.mpr hslash⟩
  obtain ⟨hdot, hdots⟩ := hhands.dotless _ _ hpath hsegs
  refine ⟨fun heq => hdot ?_, fun heq => hdots ?_⟩ <;> rw [← heq] <;> simp

/-- **A name is the same on both sides** exactly where its encoding is the name
itself and no dot segment. -/
theorem names_alike_iff (hhands : HandsRaw hands) (hn : n ≠ "") :
    NamesAlike hands n ↔ (∀ b ∈ bytes n, isUnreserved b = true) ∧ n ≠ "." ∧ n ≠ ".." := by
  have hdots : n ≠ "." ∧ n ≠ ".." → encode (bytes n) ∉ dotSegments := by
    rintro ⟨hdot, hdots⟩ hmem
    rcases dot_of_encode hmem with h | h
    · exact hdot (bytes_inj h)
    · exact hdots (bytes_inj h)
  constructor
  case mp =>
    intro h
    have hne := h.ne_dot hhands hn
    refine ⟨?_, hne⟩
    have hget := h.gets [] [] [("run_id", .str n)] rfl
    rw [asks_run_get hn rfl, (hhands.of_encoded (hdots hne)).1] at hget
    have hmatch := handle_run_iff.mp (Option.some.inj hget)
    rw [matchRun_runs] at hmatch
    split at hmatch
    · exact (encode_eq_iff _).mp (Option.some.inj hmatch)
    · cases hmatch
  case mpr =>
    rintro ⟨hplain, hne⟩
    obtain ⟨hruns, hjobs⟩ := hhands.of_encoded (hdots hne)
    have hself := encode_of_unreserved hplain
    rw [hself] at hruns hjobs
    have hempty : bytes n ≠ [] := fun h => hn (bytes_inj h)
    -- an unreserved byte is neither a slash nor an ampersand, so no pattern splits the name
    have hslash : 47 ∉ bytes n := fun h => absurd (hplain 47 h) (by decide)
    have hamp : 38 ∉ bytes n := fun h => absurd (hplain 38 h) (by decide)
    have hrun : matchRun (bytes "/runs/" ++ bytes n) = some (bytes n) :=
      (matchRun_runs _).trans (if_pos ⟨hempty, hslash⟩)
    constructor
    case lists =>
      intro declared live args hargs
      rw [asks_runs_list hargs, hself, hhands.of_query hplain]
      exact congrArg some (handle_runs hamp _)
    case gets =>
      intro declared live args hargs
      rw [asks_run_get hn hargs, hself, hruns]
      exact congrArg some (handle_run_iff.mpr hrun)
    case stops =>
      intro declared live args hargs
      rw [asks_run_stop hn hargs, hself, hruns]
      exact congrArg some (handle_stop hrun)
    case requests =>
      intro declared live args hargs
      rw [asks_job_run hn hargs, hself, hjobs]
      exact congrArg some (handle_request (matchJob_jobs hempty hslash))

end

/-! ### A parser -/

/-- The segments of a path, from the middle of one. -/
def segmentsFrom (seg : Bytes) : Bytes → List Bytes
  | [] => [seg]
  | b :: rest => if b = 47 then seg :: segmentsFrom [] rest else segmentsFrom (seg ++ [b]) rest

def segments (path : Bytes) : List Bytes :=
  match path with
  | [] => []
  | _ :: path => segmentsFrom [] path

local instance lawful_segments : LawfulBEq Bytes := inferInstance

/-- "Here" is dropped, and "one up" takes a segment with it. -/
def resolveDots (segs : List Bytes) : List Bytes :=
  segs.foldl (fun stack s =>
    if s ∈ dotSegments then if s.length = 1 ∨ s.length = 3 then stack else stack.dropLast
    else stack ++ [s]) []

def parsedTarget (target : Bytes) : Bytes × Option Bytes :=
  let path := target.takeWhile (· ≠ 63)
  (joined (resolveDots (segments path)),
    match target.drop path.length with
    | [] => none
    | _ :: query => some query)

theorem segmentsFrom_append {seg s rest : Bytes} (hs : 47 ∉ s) :
    segmentsFrom seg (s ++ rest) = segmentsFrom (seg ++ s) rest := by
  induction s generalizing seg with
  | nil => rw [List.nil_append, List.append_nil]
  | cons b s ih =>
      have hb : b ≠ 47 := fun h => hs (h ▸ List.mem_cons_self)
      show (if b = 47 then _ else segmentsFrom (seg ++ [b]) (s ++ rest)) = _
      rw [if_neg hb, ih fun h => hs (List.mem_cons_of_mem b h), List.append_assoc]
      rfl

theorem segmentsFrom_joined {s : Bytes} {segs : List Bytes} (hs : 47 ∉ s)
    (hsegs : ∀ t ∈ segs, 47 ∉ t) : segmentsFrom [] (s ++ joined segs) = s :: segs := by
  induction segs generalizing s with
  | nil =>
      rw [segmentsFrom_append hs]
      rfl
  | cons t segs ih =>
      have hrest := ih (hsegs t List.mem_cons_self) fun u hu =>
        hsegs u (List.mem_cons_of_mem t hu)
      rw [segmentsFrom_append hs]
      show s :: segmentsFrom [] (t ++ joined segs) = _
      rw [hrest]

theorem segments_joined {segs : List Bytes} (h : ∀ s ∈ segs, 47 ∉ s) :
    segments (joined segs) = segs := by
  cases segs with
  | nil => rfl
  | cons s segs =>
      exact segmentsFrom_joined (h s List.mem_cons_self) fun t ht => h t (List.mem_cons_of_mem s ht)

theorem not_mem_segments {path s : Bytes} (h : s ∈ segments path) : 47 ∉ s := by
  have hfrom : ∀ (rest seg : Bytes), 47 ∉ seg → s ∈ segmentsFrom seg rest → 47 ∉ s := by
    intro rest
    induction rest with
    | nil =>
        intro seg hseg hs
        exact List.mem_singleton.mp hs ▸ hseg
    | cons b rest ih =>
        intro seg hseg hs
        rw [segmentsFrom] at hs
        split at hs
        · rcases List.mem_cons.mp hs with rfl | hs
          · exact hseg
          · exact ih [] nofun hs
        case isFalse hb =>
          refine ih (seg ++ [b]) ?_ hs
          intro hmem
          rcases List.mem_append.mp hmem with hmem | hmem
          · exact hseg hmem
          · exact hb (List.mem_singleton.mp hmem).symm
  cases path with
  | nil => cases h
  | cons b path => exact hfrom path [] nofun h

theorem mem_resolveDots {segs : List Bytes} {s : Bytes} (h : s ∈ resolveDots segs) :
    s ∈ segs ∧ s ∉ dotSegments := by
  induction segs using List.reverseRecOn with
  | nil => cases h
  | append_singleton segs t ih =>
      rw [resolveDots, List.foldl_append] at h
      change s ∈ (if t ∈ dotSegments then if t.length = 1 ∨ t.length = 3 then resolveDots segs
        else (resolveDots segs).dropLast else resolveDots segs ++ [t]) at h
      split_ifs at h with hdot hone
      · exact (ih h).imp_left (List.mem_append_left _)
      · exact (ih (List.mem_of_mem_dropLast h)).imp_left (List.mem_append_left _)
      · rcases List.mem_append.mp h with h | h
        · exact (ih h).imp_left (List.mem_append_left _)
        · rw [List.mem_singleton.mp h]
          exact ⟨by simp, hdot⟩

theorem resolveDots_eq {segs : List Bytes} (h : ∀ s ∈ segs, s ∉ dotSegments) :
    resolveDots segs = segs := by
  induction segs using List.reverseRecOn with
  | nil => rfl
  | append_singleton segs t ih =>
      have hsegs := ih fun s hs => h s (List.mem_append_left _ hs)
      rw [resolveDots, List.foldl_append]
      show (if t ∈ dotSegments then _ else resolveDots segs ++ [t]) = _
      rw [if_neg (h t (by simp)), hsegs]

theorem parsedTarget_handsRaw : HandsRaw parsedTarget where
  keeps := by
    intro segs query hne hsegs hquery
    have hclean : ∀ c, isEncoded c = false → ∀ s ∈ segs, c ∉ s := by
      intro c hc s hs hmem
      have henc := List.all_eq_true.mp (hsegs s hs).1 c hmem
      rw [hc] at henc
      cases henc
    have hmark : ∀ b ∈ joined segs, decide (b ≠ 63) = true := by
      intro b hb
      obtain ⟨s, hs, hb⟩ := List.mem_flatMap.mp hb
      rcases List.mem_cons.mp hb with rfl | hb
      · rfl
      · exact decide_eq_true fun h => hclean 63 rfl s hs (h ▸ hb)
    have hpath : (joined segs ++ query.elim [] (63 :: ·)).takeWhile (· ≠ 63) = joined segs := by
      rw [List.takeWhile_append_of_pos hmark]
      cases query <;> exact List.append_nil _
    have hresolved : resolveDots (segments (joined segs)) = segs := by
      rw [segments_joined (hclean 47 rfl), resolveDots_eq fun s hs => (hsegs s hs).2]
    simp only [parsedTarget, hpath, hresolved, List.drop_left]
    cases query <;> rfl
  dotless := by
    intro target segs hpath hsegs
    have hmem : ∀ s ∈ resolveDots (segments (target.takeWhile (· ≠ 63))), 47 ∉ s :=
      fun s hs => not_mem_segments (mem_resolveDots hs).1
    have hsame : resolveDots (segments (target.takeWhile (· ≠ 63))) = segs := by
      rw [← segments_joined hmem, ← segments_joined hsegs]
      exact congrArg segments hpath
    rw [← hsame]
    exact ⟨fun h => (mem_resolveDots h).2 (by decide), fun h => (mem_resolveDots h).2 (by decide)⟩

/-- A plain name. -/
theorem names_alike_nightly : NamesAlike parsedTarget "nightly" :=
  (names_alike_iff parsedTarget_handsRaw (by decide)).mpr
    ⟨List.all_eq_true.mp (by decide : (bytes "nightly").all isUnreserved = true),
      by decide, by decide⟩

/-- **A job with a space in its name** is not run, and where a job has the name
it is encoded as, that one is. -/
theorem another_job_is_run :
    asks parsedTarget [bytes "a b"] [] "job_run" [("job", .str "a b")] = some .noJob ∧
      asks parsedTarget [bytes "a b", bytes "a%20b"] [] "job_run" [("job", .str "a b")] =
        some (.request (bytes "a%20b")) ∧
      ¬ NamesAlike parsedTarget "a b" := by
  refine ⟨by decide +kernel, by decide +kernel, fun h => ?_⟩
  have hdeclared := h.requests [bytes "a b"] [] [("job", .str "a b")] rfl
  revert hdeclared
  decide +kernel

end AgentBlock.Serve
