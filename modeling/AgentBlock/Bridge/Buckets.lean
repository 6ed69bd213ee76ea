/-
AgentBlock/Bridge/Buckets.lean

Whether time buckets partition a range.

A bucket is the quotient of a time, which drops the fraction: below zero it is
rounded up.  A point before zero then stands in the bucket above its own, unless
its time is a multiple of the width (`bucketTs_le_iff`), and `partitions_iff` says
that nothing else can go wrong.
-/
import AgentBlock.Bridge.Ts
import Mathlib.Algebra.BigOperators.Ring.Finset
import Mathlib.Data.List.Dedup

namespace AgentBlock.Ts

open Bridge (LuaVal)

/-! ### One bucket -/

section

variable {b t : ℤ}

theorem bucketTs_eq (b t : ℤ) : bucketTs b t = t - t.tmod b := Int.tdiv_mul_self t b

theorem dvd_bucketTs (b t : ℤ) : b ∣ bucketTs b t := Dvd.intro_left _ rfl

theorem tmod_neg_of_neg (h : t < 0) : t.tmod b = -((-t) % b) := by
  rw [← Int.tmod_eq_emod_of_nonneg (by omega : 0 ≤ -t), Int.neg_tmod, Int.neg_neg]

/-- A bucket starts no later than a time in it exactly if the time is not before
zero or is its start. -/
theorem bucketTs_le_iff (hb : 0 < b) : bucketTs b t ≤ t ↔ 0 ≤ t ∨ b ∣ t := by
  rw [bucketTs_eq, sub_le_self_iff]
  rcases lt_or_ge t 0 with ht | ht
  · rw [tmod_neg_of_neg ht]
    have hnonneg := Int.emod_nonneg (-t) hb.ne'
    have hdvd : b ∣ t ↔ (-t) % b = 0 := by
      rw [← Int.dvd_neg]
      exact Int.dvd_iff_emod_eq_zero
    rw [hdvd]
    omega
  · exact iff_of_true (Int.tmod_nonneg b ht) (Or.inl ht)

theorem lt_bucketTs (hb : 0 < b) (t : ℤ) : t < bucketTs b t + b := by
  have hlt := Int.tmod_lt_of_pos t hb
  rw [bucketTs_eq]
  omega

end

/-! ### All buckets -/

/-- The elements of each key, one key after another. -/
theorem flatMap_filter_perm {α κ : Type*} [DecidableEq κ] {key : α → κ} {keys : List κ}
    {xs : List α} (hkeys : keys.Nodup) (h : ∀ x ∈ xs, key x ∈ keys) :
    (keys.flatMap fun k => xs.filter fun x => key x = k).Perm xs := by
  induction keys generalizing xs with
  | nil =>
      have hnone : xs = [] := List.eq_nil_iff_forall_not_mem.mpr fun x hx => nomatch h x hx
      rw [hnone]
      exact List.Perm.refl _
  | cons k keys ih =>
      obtain ⟨hk, hkeys⟩ := List.nodup_cons.mp hkeys
      have hrest : ∀ x ∈ xs.filter (fun x => !decide (key x = k)), key x ∈ keys := by
        intro x hx
        obtain ⟨hx, hne⟩ := List.mem_filter.mp hx
        refine (List.mem_cons.mp (h x hx)).resolve_left fun heq => ?_
        simp [heq] at hne
      have hsame : ∀ k' ∈ keys, (xs.filter fun x => key x = k') =
          (xs.filter fun x => !decide (key x = k)).filter fun x => key x = k' := by
        intro k' hk'
        rw [List.filter_filter]
        refine List.filter_congr fun x _ => ?_
        by_cases hx : key x = k'
        · have hne : key x ≠ k := fun heq => hk (heq.symm.trans hx ▸ hk')
          simp [hx, hx ▸ hne]
        · simp [hx]
      rw [List.flatMap_cons, List.flatMap_congr hsame]
      exact ((ih hkeys hrest).append_left _).trans (List.filter_append_perm _ xs)

section

variable {b : ℤ} {points : List Point}

theorem mem_groups {g : ℤ × List Point} (h : g ∈ groups b points) :
    g.2 = points.filter fun p => bucketTs b p.ts.val = g.1 := by
  obtain ⟨bucket, -, rfl⟩ := List.mem_map.mp h
  rfl

theorem exists_of_mem_groups {g : ℤ × List Point} (h : g ∈ groups b points) :
    ∃ p ∈ g.2, bucketTs b p.ts.val = g.1 := by
  obtain ⟨bucket, hbucket, rfl⟩ := List.mem_map.mp h
  have hmem := List.mem_dedup.mp ((List.perm_insertionSort _ _).mem_iff.mp hbucket)
  obtain ⟨p, hp, hts⟩ := List.mem_map.mp hmem
  exact ⟨p, List.mem_filter.mpr ⟨hp, decide_eq_true hts⟩, hts⟩

/-- Each point is in one bucket, once. -/
theorem groups_perm (b : ℤ) (points : List Point) :
    ((groups b points).flatMap Prod.snd).Perm points := by
  rw [groups, List.flatMap_map]
  apply flatMap_filter_perm
  · exact (List.perm_insertionSort _ _).nodup_iff.mpr (List.nodup_dedup _)
  · intro p hp
    exact (List.perm_insertionSort _ _).mem_iff.mpr
      (List.mem_dedup.mpr (List.mem_map_of_mem hp))

theorem groups_increasing (b : ℤ) (points : List Point) :
    ((groups b points).map Prod.fst).Pairwise (· < ·) := by
  have hfst : (groups b points).map Prod.fst =
      (points.map fun p => bucketTs b p.ts.val).dedup.insertionSort (· ≤ ·) := by
    rw [groups, List.map_map]
    exact List.map_id _
  have hsorted := List.pairwise_insertionSort (· ≤ ·)
    (points.map fun p => bucketTs b p.ts.val).dedup
  have hnodup : ((points.map fun p => bucketTs b p.ts.val).dedup.insertionSort (· ≤ ·)).Nodup :=
    (List.perm_insertionSort _ _).nodup_iff.mpr (List.nodup_dedup _)
  rw [hfst]
  exact hsorted.imp₂ (fun _ _ hle hne => lt_of_le_of_ne hle hne) hnodup

/-- The greatest time of points, from one that is no greater. -/
theorem foldl_max_spec (points : List Point) (n : ℤ) :
    (∀ p ∈ points, p.ts.val ≤ points.foldl (fun n p => max n p.ts.val) n) ∧
      n ≤ points.foldl (fun n p => max n p.ts.val) n ∧
      (points.foldl (fun n p => max n p.ts.val) n = n ∨
        ∃ p ∈ points, points.foldl (fun n p => max n p.ts.val) n = p.ts.val) := by
  induction points generalizing n with
  | nil => exact ⟨fun p hp => absurd hp List.not_mem_nil, le_refl n, Or.inl rfl⟩
  | cons p points ih =>
      obtain ⟨hall, hle, hone⟩ := ih (max n p.ts.val)
      refine ⟨?_, le_trans (le_max_left _ _) hle, ?_⟩
      · rintro q (_ | ⟨_, hq⟩)
        · exact le_trans (le_max_right _ _) hle
        · exact hall q hq
      · rcases hone with heq | ⟨q, hq, heq⟩
        · rcases max_choice n p.ts.val with hmax | hmax
          · exact Or.inl (heq.trans hmax)
          · exact Or.inr ⟨p, List.mem_cons_self, heq.trans hmax⟩
        · exact Or.inr ⟨q, List.mem_cons_of_mem p hq, heq⟩

theorem foldl_max_mem {points : List Point} (hne : points ≠ []) :
    ∃ p ∈ points, points.foldl (fun n p => max n p.ts.val) (-9223372036854775808) = p.ts.val ∧
      ∀ q ∈ points, q.ts.val ≤ p.ts.val := by
  obtain ⟨hall, hle, hone⟩ := foldl_max_spec points (-9223372036854775808)
  rcases hone with heq | ⟨p, hp, heq⟩
  · -- Then every point is at the least time there is.
    obtain ⟨p, hp⟩ := List.exists_mem_of_ne_nil points hne
    have hpoint : p.ts.val = -9223372036854775808 :=
      le_antisymm (heq ▸ hall p hp) p.ts.lo
    exact ⟨p, hp, heq.trans hpoint.symm, fun q hq => hpoint ▸ heq ▸ hall q hq⟩
  · exact ⟨p, hp, heq, fun q hq => heq ▸ hall q hq⟩

end

/-! ### The query -/

/-- The points of a series in a range. -/
def inRange (db : List Point) (series : String) (a z : I64) : List Point :=
  selected db { series := series, fromTs := a, toTs := z }

/-- The options of an aggregate over a range. -/
def rangeOpts (a z : I64) (agg : String) (bucketMs : Option I64) : Opts where
  fromTs := .num (.int a.val)
  toTs := .num (.int z.val)
  agg := .str agg
  bucketMs := bucketMs.elim .nil fun b => .num (.int b.val)

section

variable {ρ : Type} (sumOf avgOf : List Json → ρ) (jsonText : Json → String)
  (numberText : LuaNumber → String) (asI64 : LuaVal → Option I64) (db : List Point)
  (series : String) (a z b : I64) (hasI64 : IntConversion asI64)

/-- Each point of the range is counted in one bucket, which its time lies in; the
buckets are as wide as was asked for, at its multiples and in order, and the
counts and the last times are those of their points. -/
structure Partitions : Prop where
  once : ((groups b.val (inRange db series a z)).flatMap Prod.snd).Perm (inRange db series a z)
  inside : ∀ g ∈ groups b.val (inRange db series a z), ∀ p ∈ g.2,
    g.1 ≤ p.ts.val ∧ p.ts.val < g.1 + b.val
  multiple : ∀ g ∈ groups b.val (inRange db series a z), b.val ∣ g.1
  increasing : ((groups b.val (inRange db series a z)).map Prod.fst).Pairwise (· < ·)
  counts : query sumOf avgOf jsonText numberText asI64 db series (rangeOpts a z "count" (some b)) =
    .ok (.bucketed ((groups b.val (inRange db series a z)).map fun g =>
      (g.1, .integer g.2.length)))
  total : query sumOf avgOf jsonText numberText asI64 db series (rangeOpts a z "count" none) =
    .ok (.single (.integer ((groups b.val (inRange db series a z)).map fun g =>
      (g.2.length : ℤ)).sum))
  lasts : ∃ rows,
    query sumOf avgOf jsonText numberText asI64 db series (rangeOpts a z "last" (some b)) =
      .ok (.bucketed rows) ∧
    List.Forall₂ (fun g row => ∃ p ∈ g.2, row = (g.1, .integer p.ts.val) ∧
      ∀ q ∈ g.2, q.ts.val ≤ p.ts.val) (groups b.val (inRange db series a z)) rows

include hasI64

theorem queryOf_bucketed (hb : 0 < b.val) (agg : String) :
    queryOf jsonText numberText asI64 series (rangeOpts a z agg (some b)) =
      .ok { series := series, fromTs := a, toTs := z, agg := some agg, bucketMs := some b } := by
  have hcheck : checkBucket (some agg) (some b) = .ok () := by
    rw [checkBucket, if_neg (by omega)]
    rfl
  simp only [queryOf, rangeOpts, Option.elim, hasI64.nil, hasI64.int, asText, hcheck]
  rfl

theorem queryOf_single (agg : String) :
    queryOf jsonText numberText asI64 series (rangeOpts a z agg none) =
      .ok { series := series, fromTs := a, toTs := z, agg := some agg } := by
  simp only [queryOf, rangeOpts, Option.elim, hasI64.nil, hasI64.int, asText]
  rfl

theorem query_count_buckets (hb : 0 < b.val) :
    query sumOf avgOf jsonText numberText asI64 db series (rangeOpts a z "count" (some b)) =
      .ok (.bucketed ((groups b.val (inRange db series a z)).map fun g =>
        (g.1, aggregate sumOf avgOf .count g.2))) := by
  rw [query, queryOf_bucketed jsonText numberText asI64 series a z b hasI64 hb]
  rfl

theorem query_last_buckets (hb : 0 < b.val) :
    query sumOf avgOf jsonText numberText asI64 db series (rangeOpts a z "last" (some b)) =
      .ok (.bucketed ((groups b.val (inRange db series a z)).map fun g =>
        (g.1, aggregate sumOf avgOf .last g.2))) := by
  rw [query, queryOf_bucketed jsonText numberText asI64 series a z b hasI64 hb]
  rfl

theorem query_count :
    query sumOf avgOf jsonText numberText asI64 db series (rangeOpts a z "count" none) =
      .ok (.single (aggregate sumOf avgOf .count (inRange db series a z))) := by
  rw [query, queryOf_single jsonText numberText asI64 series a z hasI64]
  rfl

/-- **The buckets partition the range** exactly if no point of it is before zero,
those at a bucket's start aside. -/
theorem partitions_iff (hb : 0 < b.val) :
    Partitions sumOf avgOf jsonText numberText asI64 db series a z b ↔
      ∀ p ∈ inRange db series a z, 0 ≤ p.ts.val ∨ b.val ∣ p.ts.val := by
  have hperm := groups_perm b.val (inRange db series a z)
  constructor
  case mp =>
    intro h p hp
    obtain ⟨g, hg, hpg⟩ := List.mem_flatMap.mp (hperm.mem_iff.mpr hp)
    have hbucket : bucketTs b.val p.ts.val = g.1 := by
      rw [mem_groups hg] at hpg
      exact of_decide_eq_true (List.mem_filter.mp hpg).2
    refine (bucketTs_le_iff hb).mp ?_
    rw [hbucket]
    exact (h.inside g hg p hpg).1
  case mpr =>
    intro h
    constructor
    case once => exact hperm
    case inside =>
      intro g hg p hpg
      rw [mem_groups hg] at hpg
      obtain ⟨hp, hbucket⟩ := List.mem_filter.mp hpg
      rw [← of_decide_eq_true hbucket]
      exact ⟨(bucketTs_le_iff hb).mpr (h p hp), lt_bucketTs hb _⟩
    case multiple =>
      intro g hg
      obtain ⟨p, -, hbucket⟩ := exists_of_mem_groups hg
      exact hbucket ▸ dvd_bucketTs b.val p.ts.val
    case increasing => exact groups_increasing b.val _
    case counts =>
      exact query_count_buckets sumOf avgOf jsonText numberText asI64 db series a z b hasI64 hb
    case total =>
      have hlength : ((inRange db series a z).length : ℤ) =
          ((groups b.val (inRange db series a z)).map fun g => (g.2.length : ℤ)).sum := by
        rw [← hperm.length_eq, List.length_flatMap, Nat.cast_list_sum, List.map_map]
        rfl
      rw [query_count sumOf avgOf jsonText numberText asI64 db series a z hasI64, aggregate, hlength]
    case lasts =>
      refine ⟨_,
        query_last_buckets sumOf avgOf jsonText numberText asI64 db series a z b hasI64 hb, ?_⟩
      rw [List.forall₂_map_right_iff, List.forall₂_same]
      intro g hg
      obtain ⟨p, hp, -⟩ := exists_of_mem_groups hg
      -- a group has a point, so the maximum is one of them
      obtain ⟨q, hq, htop, hmax⟩ := foldl_max_mem (List.ne_nil_of_mem hp)
      exact ⟨q, hq, congrArg (fun n => (g.1, AggValue.integer n)) htop, hmax⟩

end

/-- Points at these times, with nothing else to them. -/
def pointAt (ts : I64) : Point := ⟨"s", ts, none, .num (.int 0)⟩

/-- All of time. -/
def earliest : I64 := ⟨-9223372036854775808, I64.lo_le_lo, I64.lo_le_hi⟩

def latest : I64 := ⟨9223372036854775807, I64.lo_le_hi, I64.hi_le_hi⟩

def ten : I64 := ⟨10, by decide, by decide⟩

/-- Two points of one bucket, one of the next, and the start of one before zero. -/
def plainPoints : List Point :=
  [pointAt ⟨12, by decide, by decide⟩, pointAt ⟨19, by decide, by decide⟩,
    pointAt ⟨20, by decide, by decide⟩, pointAt ⟨-10, by decide, by decide⟩]

theorem plainPoints_partitioned :
    Partitions (fun _ => ()) (fun _ => ()) (fun _ => "") (fun _ => "") wholeI64 plainPoints "s" earliest
      latest ten := by
  apply (partitions_iff (fun _ => ()) (fun _ => ()) (fun _ => "") (fun _ => "") wholeI64 plainPoints
    "s" earliest latest ten wholeI64_converts (by decide)).mpr
  intro p hp
  have hmem : p ∈ plainPoints := (List.mem_filter.mp hp).1
  simp only [plainPoints, List.mem_cons, List.not_mem_nil, or_false] at hmem
  rcases hmem with rfl | rfl | rfl | rfl <;> decide

/-- **A point before zero** is counted in a bucket that starts after it. -/
theorem a_point_before_zero_is_counted_after :
    groups 10 (inRange [pointAt ⟨-5, by decide, by decide⟩] "s" earliest latest) =
        [(0, [pointAt ⟨-5, by decide, by decide⟩])] ∧
      ¬ Partitions (fun _ => ()) (fun _ => ()) (fun _ => "") (fun _ => "") wholeI64
        [pointAt ⟨-5, by decide, by decide⟩] "s" earliest latest ten := by
  have hgroups : groups 10 (inRange [pointAt ⟨-5, by decide, by decide⟩] "s" earliest latest) =
      [(0, [pointAt ⟨-5, by decide, by decide⟩])] := rfl
  refine ⟨hgroups, fun h => ?_⟩
  have hinside := (h.inside (0, [pointAt ⟨-5, by decide, by decide⟩])
    (by rw [show ten.val = 10 from rfl, hgroups]; exact List.mem_singleton_self _)
    (pointAt ⟨-5, by decide, by decide⟩) List.mem_cons_self).1
  revert hinside
  decide

end AgentBlock.Ts
