/-
AgentBlock/Lib/Patch.lean

Replacing ranges of a list.

A patch puts a list in place of the positions of a range; the ranges of several
that share no position can be read against one list and replaced at once
(`patched`), whatever the order the patches are listed in.  Splicing them in
one at a time, the last range first, comes to the same (`foldr_splice`).
-/
import Mathlib.Algebra.GroupWithZero.Nat
import Mathlib.Data.List.Pairwise

/-- Put `new` in place of the positions from `first` on and before `stop`. -/
structure Patch (α : Type*) where
  first : ℕ
  stop : ℕ
  new : List α

namespace Patch

variable {α : Type*} {patches patches' : List (Patch α)} {p q : Patch α} {xs ys : List α}
  {a : α} {k n : ℕ}

def Covers (p : Patch α) (k : ℕ) : Prop := p.first ≤ k ∧ k < p.stop

instance (k : ℕ) : DecidablePred fun p : Patch α => p.Covers k :=
  fun p => inferInstanceAs (Decidable (p.first ≤ k ∧ k < p.stop))

/-- The range is not empty, and lies in a list of `n` positions. -/
def Fits (n : ℕ) (p : Patch α) : Prop := p.first < p.stop ∧ p.stop ≤ n

/-- No position is in both ranges. -/
def Apart (p q : Patch α) : Prop := ∀ k, p.Covers k → ¬ q.Covers k

theorem Apart.symm (h : p.Apart q) : q.Apart p := fun k hq hp => h k hp hq

instance : Std.Symm (Apart (α := α)) := ⟨fun _ _ h => h.symm⟩

theorem Fits.covers (h : p.Fits n) : p.Covers p.first := ⟨Nat.le_refl _, h.1⟩

theorem apart_iff (hp : p.Fits n) (hq : q.Fits n) :
    p.Apart q ↔ p.stop ≤ q.first ∨ q.stop ≤ p.first := by
  constructor
  · intro h
    by_contra hmeet
    have hmax := h (max p.first q.first)
    simp only [Covers] at hmax
    have := hp.1
    have := hq.1
    omega
  · rintro h k ⟨hp₁, hp₂⟩ ⟨hq₁, hq₂⟩
    omega

/-- Of ranges that share no position, one covers a position. -/
theorem eq_of_covers (happart : patches.Pairwise Apart) (hp : p ∈ patches) (hq : q ∈ patches)
    (hpk : p.Covers k) (hqk : q.Covers k) : p = q := by
  by_contra hne
  exact happart.forall hp hq hne k hpk hqk

/-! ### All at once -/

/-- What stands at a position after the patches: the new text of a range that
begins there, nothing in the rest of a range, and what was there elsewhere. -/
def placed (patches : List (Patch α)) (k : ℕ) (a : α) : List α :=
  match patches.find? fun p => p.first = k with
  | some p => p.new
  | none => if ∃ p ∈ patches, p.Covers k then [] else [a]

/-- The list with every range replaced, its first position being `k`. -/
def patchedFrom (patches : List (Patch α)) : ℕ → List α → List α
  | _, [] => []
  | k, a :: xs => placed patches k a ++ patchedFrom patches (k + 1) xs

def patched (patches : List (Patch α)) (xs : List α) : List α := patchedFrom patches 0 xs

/-- One patch alone. -/
def splice (xs : List α) (p : Patch α) : List α := xs.take p.first ++ p.new ++ xs.drop p.stop

theorem placed_first (hfits : ∀ p ∈ patches, p.Fits n) (happart : patches.Pairwise Apart)
    (hp : p ∈ patches) : placed patches p.first a = p.new := by
  unfold placed
  cases hfind : patches.find? fun q => q.first = p.first with
  | none => exact absurd (List.find?_eq_none.mp hfind p hp) (by simp)
  | some q =>
      have hq := List.mem_of_find?_eq_some hfind
      have hfirst : q.first = p.first := by simpa using List.find?_some hfind
      have hcovers : q.Covers p.first := hfirst ▸ (hfits q hq).covers
      rw [eq_of_covers happart hp hq (hfits p hp).covers hcovers]

theorem placed_inner (hfits : ∀ p ∈ patches, p.Fits n) (happart : patches.Pairwise Apart)
    (hp : p ∈ patches) (hk : p.Covers k) (hne : p.first ≠ k) : placed patches k a = [] := by
  unfold placed
  cases hfind : patches.find? fun q => q.first = k with
  | none => exact if_pos ⟨p, hp, hk⟩
  | some q =>
      have hq := List.mem_of_find?_eq_some hfind
      have hfirst : q.first = k := by simpa using List.find?_some hfind
      have hcovers : q.Covers k := hfirst ▸ (hfits q hq).covers
      obtain rfl := eq_of_covers happart hp hq hk hcovers
      exact absurd hfirst hne

theorem placed_clear (hfits : ∀ p ∈ patches, p.Fits n) (hclear : ∀ p ∈ patches, ¬ p.Covers k) :
    placed patches k a = [a] := by
  unfold placed
  cases hfind : patches.find? fun q => q.first = k with
  | none => exact if_neg fun ⟨p, hp, hk⟩ => hclear p hp hk
  | some q =>
      have hq := List.mem_of_find?_eq_some hfind
      have hfirst : q.first = k := by simpa using List.find?_some hfind
      exact absurd (hfirst ▸ (hfits q hq).covers) (hclear q hq)

/-- The order the patches are listed in says nothing. -/
theorem placed_perm (hfits : ∀ p ∈ patches, p.Fits n) (happart : patches.Pairwise Apart)
    (hperm : patches'.Perm patches) : placed patches' k a = placed patches k a := by
  have hfits' : ∀ p ∈ patches', p.Fits n := fun p hp => hfits p (hperm.mem_iff.mp hp)
  have happart' : patches'.Pairwise Apart :=
    (hperm.pairwise_iff fun h => h.symm).mpr happart
  by_cases hcovered : ∃ p ∈ patches, p.Covers k
  · obtain ⟨p, hp, hk⟩ := hcovered
    have hp' := hperm.mem_iff.mpr hp
    by_cases hfirst : p.first = k
    · subst hfirst
      rw [placed_first hfits happart hp, placed_first hfits' happart' hp']
    · rw [placed_inner hfits happart hp hk hfirst, placed_inner hfits' happart' hp' hk hfirst]
  · have hclear : ∀ p ∈ patches, ¬ p.Covers k := fun p hp hk => hcovered ⟨p, hp, hk⟩
    rw [placed_clear hfits hclear,
      placed_clear hfits' fun p hp => hclear p (hperm.mem_iff.mp hp)]

theorem patched_perm (hfits : ∀ p ∈ patches, p.Fits n) (happart : patches.Pairwise Apart)
    (hperm : patches'.Perm patches) : patched patches' xs = patched patches xs := by
  have hfrom : ∀ k, patchedFrom patches' k xs = patchedFrom patches k xs := by
    induction xs with
    | nil => intro k; rfl
    | cons a xs ih =>
        intro k
        show placed patches' k a ++ _ = placed patches k a ++ _
        rw [placed_perm hfits happart hperm, ih]
  exact hfrom 0

/-! ### One at a time -/

theorem patchedFrom_append (xs ys : List α) :
    patchedFrom patches k (xs ++ ys) =
      patchedFrom patches k xs ++ patchedFrom patches (k + xs.length) ys := by
  induction xs generalizing k with
  | nil => rfl
  | cons a xs ih =>
      show placed patches k a ++ patchedFrom patches (k + 1) (xs ++ ys) = _
      rw [ih, ← List.append_assoc, List.length_cons, Nat.add_assoc, Nat.add_comm 1]
      rfl

theorem patchedFrom_congr
    (h : ∀ i < xs.length, ∀ a, placed patches (k + i) a = placed patches' (k + i) a) :
    patchedFrom patches k xs = patchedFrom patches' k xs := by
  induction xs generalizing k with
  | nil => rfl
  | cons a xs ih =>
      have hrest : patchedFrom patches (k + 1) xs = patchedFrom patches' (k + 1) xs := by
        apply ih
        intro i hi b
        have hnext := h (i + 1) (Nat.succ_lt_succ hi) b
        rwa [Nat.add_comm i 1, ← Nat.add_assoc] at hnext
      show placed patches k a ++ _ = placed patches' k a ++ _
      rw [hrest, show placed patches k a = placed patches' k a from h 0 (Nat.succ_pos _) a]

/-- Where no range is, the list stays as it is, -/
theorem patchedFrom_clear (hfits : ∀ p ∈ patches, p.Fits n)
    (hclear : ∀ i < xs.length, ∀ p ∈ patches, ¬ p.Covers (k + i)) :
    patchedFrom patches k xs = xs := by
  induction xs generalizing k with
  | nil => rfl
  | cons a xs ih =>
      have hrest : patchedFrom patches (k + 1) xs = xs := by
        apply ih
        intro i hi
        have hnext := hclear (i + 1) (Nat.succ_lt_succ hi)
        rwa [Nat.add_comm i 1, ← Nat.add_assoc] at hnext
      have hhere : placed patches k a = [a] :=
        placed_clear hfits (hclear 0 (Nat.succ_pos _))
      show placed patches k a ++ _ = a :: xs
      rw [hrest, hhere]
      rfl

/-- the rest of a range is gone, -/
theorem patchedFrom_inner (hfits : ∀ p ∈ patches, p.Fits n) (happart : patches.Pairwise Apart)
    (hp : p ∈ patches) (hfirst : p.first < k) (hstop : k + xs.length ≤ p.stop) :
    patchedFrom patches k xs = [] := by
  induction xs generalizing k with
  | nil => rfl
  | cons a xs ih =>
      rw [List.length_cons] at hstop
      show placed patches k a ++ patchedFrom patches (k + 1) xs = []
      have hhere : placed patches k a = [] :=
        placed_inner hfits happart hp ⟨Nat.le_of_lt hfirst, by omega⟩ (Nat.ne_of_lt hfirst)
      rw [hhere, ih (by omega) (by omega)]
      rfl

/-- and a whole range becomes its new text. -/
theorem patchedFrom_range (hfits : ∀ p ∈ patches, p.Fits n) (happart : patches.Pairwise Apart)
    (hp : p ∈ patches) (hlen : p.first + xs.length = p.stop) :
    patchedFrom patches p.first xs = p.new := by
  cases xs with
  | nil => exact absurd hlen (Nat.ne_of_lt (hfits p hp).1)
  | cons a xs =>
      rw [List.length_cons] at hlen
      show placed patches p.first a ++ patchedFrom patches (p.first + 1) xs = p.new
      rw [placed_first hfits happart hp,
        patchedFrom_inner hfits happart hp (Nat.lt_succ_self _) (by omega), List.append_nil]

/-- The first of the ranges, on top of the others. -/
theorem patched_cons (hfits : ∀ q ∈ p :: patches, q.Fits xs.length)
    (hbefore : ∀ q ∈ patches, p.stop ≤ q.first) (happart : (p :: patches).Pairwise Apart) :
    patched (p :: patches) xs = splice (patched patches xs) p := by
  have hp := hfits p List.mem_cons_self
  obtain ⟨hlt, hle⟩ := hp
  have hothers : ∀ q ∈ patches, q.Fits xs.length := fun q hq => hfits q (List.mem_cons_of_mem _ hq)
  -- the list in three: before the range, the range, and after it
  obtain ⟨before, rest, rfl, hlenb⟩ :
      ∃ before rest, xs = before ++ rest ∧ before.length = p.first :=
    ⟨xs.take p.first, xs.drop p.first, (List.take_append_drop _ _).symm,
      List.length_take_of_le (by omega)⟩
  obtain ⟨mid, after, rfl, hlenm⟩ :
      ∃ mid after, rest = mid ++ after ∧ p.first + mid.length = p.stop := by
    have hrest : p.stop - p.first ≤ rest.length := by
      rw [List.length_append] at hle
      omega
    refine ⟨rest.take (p.stop - p.first), rest.drop (p.stop - p.first),
      (List.take_append_drop _ _).symm, ?_⟩
    rw [List.length_take_of_le hrest]
    omega
  have hsplit : ∀ ps : List (Patch α), patched ps (before ++ (mid ++ after)) =
      patchedFrom ps 0 before ++ (patchedFrom ps p.first mid ++ patchedFrom ps p.stop after) := by
    intro ps
    rw [patched, patchedFrom_append, patchedFrom_append, Nat.zero_add, hlenb, hlenm]
  have hclear : ∀ i, i < p.stop → ∀ q ∈ patches, ¬ q.Covers i := by
    rintro i hi q hq ⟨hfirst, -⟩
    have := hbefore q hq
    omega
  have hbefore₁ : patchedFrom (p :: patches) 0 before = before := by
    apply patchedFrom_clear hfits
    intro i hi q hq
    rcases List.mem_cons.mp hq with rfl | hq
    · rintro ⟨hfirst, -⟩
      omega
    · exact hclear _ (by omega) q hq
  have hbefore₂ : patchedFrom patches 0 before = before :=
    patchedFrom_clear hothers fun i hi => hclear _ (by omega)
  have hmid : patchedFrom patches p.first mid = mid :=
    patchedFrom_clear hothers fun i hi => hclear _ (by omega)
  have hrange : patchedFrom (p :: patches) p.first mid = p.new :=
    patchedFrom_range hfits happart List.mem_cons_self hlenm
  have hafter : patchedFrom (p :: patches) p.stop after = patchedFrom patches p.stop after := by
    apply patchedFrom_congr
    intro i hi b
    have hnot : ¬ p.Covers (p.stop + i) := fun h => by have := h.2; omega
    unfold placed
    rw [List.find?_cons_of_neg (by simp; omega)]
    simp [hnot]
  rw [hsplit, hsplit, hbefore₁, hbefore₂, hmid, hrange, hafter, splice, ← hlenb,
    List.take_left, List.append_assoc]
  congr 2
  rw [← List.append_assoc, ← hlenm, ← hlenb, ← List.length_append, List.drop_left]

theorem patched_nil (xs : List α) : patched [] xs = xs :=
  patchedFrom_clear (n := 0) (fun _ hp => absurd hp List.not_mem_nil)
    fun _ _ _ hp => absurd hp List.not_mem_nil

/-- **The last range first**, each splice leaves the positions of the ones
before it where they were. -/
theorem foldr_splice (hfits : ∀ p ∈ patches, p.Fits xs.length)
    (hordered : patches.Pairwise fun p q => p.stop ≤ q.first) :
    patches.foldr (fun p xs => splice xs p) xs = patched patches xs := by
  induction patches with
  | nil => exact (patched_nil xs).symm
  | cons p patches ih =>
      obtain ⟨hbefore, hrest⟩ := List.pairwise_cons.mp hordered
      have happart : (p :: patches).Pairwise Apart := by
        refine hordered.imp_of_mem fun hp hq h => ?_
        exact (apart_iff (hfits _ hp) (hfits _ hq)).mpr (Or.inl h)
      rw [patched_cons hfits hbefore happart, List.foldr_cons,
        ih (fun q hq => hfits q (List.mem_cons_of_mem _ hq)) hrest]

/-- What a patched list is made of. -/
theorem mem_patched (h : a ∈ patched patches xs) : a ∈ xs ∨ ∃ p ∈ patches, a ∈ p.new := by
  have hplaced : ∀ k b, a ∈ placed patches k b → a = b ∨ ∃ p ∈ patches, a ∈ p.new := by
    intro k b hmem
    unfold placed at hmem
    split at hmem
    next p hfind => exact Or.inr ⟨p, List.mem_of_find?_eq_some hfind, hmem⟩
    next =>
      split at hmem
      · exact absurd hmem List.not_mem_nil
      · exact Or.inl (List.mem_singleton.mp hmem)
  have hfrom : ∀ k, a ∈ patchedFrom patches k xs → a ∈ xs ∨ ∃ p ∈ patches, a ∈ p.new := by
    clear h
    induction xs with
    | nil => exact fun _ hmem => absurd hmem List.not_mem_nil
    | cons b xs ih =>
        intro k hmem
        rcases List.mem_append.mp hmem with hmem | hmem
        · exact (hplaced k b hmem).imp_left fun hab => by rw [hab]; exact List.mem_cons_self
        · exact (ih (k + 1) hmem).imp_left (List.mem_cons_of_mem _)
  exact hfrom 0 h

/-! ### Before, after and cell by cell -/

/-- What comes before every range is as it was, -/
theorem patched_after (hfits : ∀ p ∈ patches, p.Fits n) (hk : k ≤ xs.length)
    (hafter : ∀ p ∈ patches, k ≤ p.first) :
    ∃ rest, patched patches xs = xs.take k ++ rest := by
  refine ⟨patchedFrom patches (0 + (xs.take k).length) (xs.drop k), ?_⟩
  have hbefore : patchedFrom patches 0 (xs.take k) = xs.take k := by
    apply patchedFrom_clear hfits
    rintro i hi p hp ⟨hfirst, -⟩
    have := hafter p hp
    rw [List.length_take] at hi
    omega
  calc patched patches xs = patchedFrom patches 0 (xs.take k ++ xs.drop k) := by
        rw [List.take_append_drop]
        rfl
    _ = _ := by rw [patchedFrom_append, hbefore]

/-- and so is what comes after them. -/
theorem patched_append (hfits : ∀ p ∈ patches, p.Fits xs.length) (ys : List α) :
    patched patches (xs ++ ys) = patched patches xs ++ ys := by
  rw [patched, patchedFrom_append]
  congr 1
  apply patchedFrom_clear hfits
  rintro i hi p hp ⟨-, hstop⟩
  have := (hfits p hp).2
  omega

theorem find?_congr {ι : Type*} {es : List ι} {f g : ι → Bool} (h : ∀ e ∈ es, f e = g e) :
    es.find? f = es.find? g := by
  induction es with
  | nil => rfl
  | cons e es ih =>
      rw [List.find?_cons, List.find?_cons, h e List.mem_cons_self,
        ih fun x hx => h x (List.mem_cons_of_mem _ hx)]

/-- Two lists with ranges at the same positions read the same when their cells
and their new texts do. -/
theorem flatMap_patched {ι β γ : Type*} {es : List ι} {p : ι → Patch α} {q : ι → Patch β}
    {f : α → List γ} {g : β → List γ} {h : α → β}
    (hrange : ∀ e ∈ es, (p e).first = (q e).first ∧ (p e).stop = (q e).stop)
    (hnew : ∀ e ∈ es, (p e).new.flatMap f = (q e).new.flatMap g) (hcell : ∀ a, f a = g (h a))
    (xs : List α) :
    (patched (es.map p) xs).flatMap f = (patched (es.map q) (xs.map h)).flatMap g := by
  have hplaced : ∀ k a, (placed (es.map p) k a).flatMap f =
      (placed (es.map q) k (h a)).flatMap g := by
    intro k a
    have hfind : (es.map p).find? (fun r => r.first = k) =
        (es.find? fun e => (p e).first = k).map p := List.find?_map
    have hfind' : (es.map q).find? (fun r => r.first = k) =
        (es.find? fun e => (q e).first = k).map q := List.find?_map
    have hsame : (es.find? fun e => (p e).first = k) = es.find? fun e => (q e).first = k := by
      apply find?_congr
      intro e he
      rw [(hrange e he).1]
    -- both have the same ranges, so the same cells are covered
    have hcovers : (∃ r ∈ es.map p, r.Covers k) ↔ ∃ r ∈ es.map q, r.Covers k := by
      simp only [List.mem_map, exists_exists_and_eq_and]
      refine exists_congr fun e => and_congr_right fun he => ?_
      rw [Covers, Covers, (hrange e he).1, (hrange e he).2]
    unfold placed
    rw [hfind, hfind', hsame]
    cases hfound : es.find? fun e => (q e).first = k with
    | some e => exact hnew e (List.mem_of_find?_eq_some hfound)
    | none =>
        show List.flatMap f (if _ then _ else _) = List.flatMap g (if _ then _ else _)
        by_cases hcovered : ∃ r ∈ es.map q, r.Covers k
        · rw [if_pos (hcovers.mpr hcovered), if_pos hcovered]
          rfl
        · rw [if_neg (mt hcovers.mp hcovered), if_neg hcovered, List.flatMap_singleton,
            List.flatMap_singleton, hcell]
  have hfrom : ∀ k, (patchedFrom (es.map p) k xs).flatMap f =
      (patchedFrom (es.map q) k (xs.map h)).flatMap g := by
    induction xs with
    | nil => exact fun k => rfl
    | cons a xs ih =>
        intro k
        show (placed _ k a ++ _).flatMap f = (placed _ k (h a) ++ _).flatMap g
        rw [List.flatMap_append, List.flatMap_append, hplaced, ih]
  exact hfrom 0

/-- The first of the ranges, in front of what the others leave. -/
theorem patched_cons_eq (hfits : ∀ q ∈ p :: patches, q.Fits xs.length)
    (hordered : (p :: patches).Pairwise fun p q => p.stop ≤ q.first) :
    ∃ after, patched patches xs = xs.take p.stop ++ after ∧
      patched (p :: patches) xs = xs.take p.first ++ p.new ++ after := by
  have hbefore := (List.pairwise_cons.mp hordered).1
  have hp := hfits p List.mem_cons_self
  have hle : p.first ≤ p.stop := Nat.le_of_lt hp.1
  have hlen : (xs.take p.stop).length = p.stop := List.length_take_of_le hp.2
  have happart : (p :: patches).Pairwise Apart := by
    refine hordered.imp_of_mem fun hp hq h => ?_
    exact (apart_iff (hfits _ hp) (hfits _ hq)).mpr (Or.inl h)
  obtain ⟨after, hafter⟩ :=
    patched_after (fun q hq => hfits q (List.mem_cons_of_mem _ hq)) hp.2 hbefore
  refine ⟨after, hafter, ?_⟩
  rw [patched_cons hfits hbefore happart, splice, hafter, List.drop_left' hlen,
    List.take_append_of_le_length (hlen.symm ▸ hle), List.take_take, Nat.min_eq_left hle]

/-- The list that a range covers. -/
def covered (xs : List α) (p : Patch α) : List α := (xs.take p.stop).drop p.first

theorem take_covered (h : p.Fits n) : xs.take p.stop = xs.take p.first ++ covered xs p := by
  have htake := List.take_append_drop p.first (xs.take p.stop)
  rw [List.take_take, Nat.min_eq_left (Nat.le_of_lt h.1)] at htake
  exact htake.symm

/-- How often something is there: less what was covered, and more for the new
texts. -/
theorem count_patched [BEq α] [LawfulBEq α] (hfits : ∀ p ∈ patches, p.Fits xs.length)
    (hordered : patches.Pairwise fun p q => p.stop ≤ q.first) (a : α) :
    (patched patches xs).count a + (patches.map fun p => (covered xs p).count a).sum =
      xs.count a + (patches.map fun p => p.new.count a).sum := by
  induction patches with
  | nil =>
      rw [patched_nil]
      rfl
  | cons p patches ih =>
      obtain ⟨after, hafter, hcons⟩ := patched_cons_eq hfits hordered
      have hih := ih (fun q hq => hfits q (List.mem_cons_of_mem _ hq))
        (List.pairwise_cons.mp hordered).2
      rw [hafter, take_covered (hfits p List.mem_cons_self), List.count_append,
        List.count_append] at hih
      rw [hcons, List.map_cons, List.map_cons, List.sum_cons, List.sum_cons, List.count_append,
        List.count_append]
      omega

end Patch
