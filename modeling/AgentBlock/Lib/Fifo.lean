/-
AgentBlock/Lib/Fifo.lean

Answers kept under a key, the oldest forgotten first.

A question asked under a key that is kept is answered by what is kept; any other is
asked anew, and its answer is kept unless it raises.  Whatever the keys are, the keys
kept are the last ones stored (`order_run`).  What is answered is what asking anew
would answer, in every run over a set of questions, exactly if any two of them under
one key are answered alike (`answers_iff`).
-/
import Mathlib.Data.List.Basic
import Mathlib.Data.Set.Basic

namespace Fifo

variable {κ ν ε ι : Type} [DecidableEq κ]

/-- The keys kept, oldest first, and what is kept under each. -/
structure Cache (κ ν : Type) where
  order : List κ := []
  byKey : κ → Option ν := fun _ => none

/-- `v` put under `k`; the oldest key goes where there are more than `size`. -/
def Cache.store (size : ℕ) (c : Cache κ ν) (k : κ) (v : ν) : Cache κ ν :=
  let byKey := Function.update c.byKey k (some v)
  let order := c.order ++ [k]
  if size < order.length then
    { order := order.tail
      byKey := match order.head? with
        | some oldest => Function.update byKey oldest none
        | none => byKey }
  else { order, byKey }

section

variable (size : ℕ) (key : ι → κ) (fresh : ι → Except ε ν)

/-- The answer to a question, and what is kept then. -/
def ask (c : Cache κ ν) (q : ι) : Except ε ν × Cache κ ν :=
  match c.byKey (key q) with
  | some hit => (.ok hit, c)
  | none =>
      match fresh q with
      | .ok v => (.ok v, c.store size (key q) v)
      | .error e => (.error e, c)

/-- The answers to questions one after another. -/
def run (c : Cache κ ν) : List ι → List (Except ε ν) × Cache κ ν
  | [] => ([], c)
  | q :: qs =>
      let (answer, c) := ask size key fresh c q
      let (answers, c) := run c qs
      (answer :: answers, c)

/-- The keys that are stored on the way. -/
def stored (c : Cache κ ν) : List ι → List κ
  | [] => []
  | q :: qs =>
      (match c.byKey (key q), fresh q with
        | none, .ok _ => [key q]
        | _, _ => []) ++ stored (ask size key fresh c q).2 qs

end

/-- The last `n` of a list. -/
def newest (n : ℕ) (l : List κ) : List κ := l.drop (l.length - n)

omit [DecidableEq κ] in
theorem newest_of_length_le {n : ℕ} {l : List κ} (h : l.length ≤ n) : newest n l = l := by
  rw [newest, Nat.sub_eq_zero_of_le h, List.drop_zero]

omit [DecidableEq κ] in
theorem newest_append (n : ℕ) (l m : List κ) : newest n (newest n l ++ m) = newest n (l ++ m) := by
  have hdrop : newest n l ++ m = (l ++ m).drop (l.length - n) :=
    (List.drop_append_of_le_length (Nat.sub_le _ _)).symm
  rw [hdrop, newest, List.drop_drop, newest]
  refine congrArg (fun k => (l ++ m).drop k) ?_
  rw [List.length_drop, List.length_append]
  omega

/-! ### What is kept -/

/-- What is kept is kept under a key of the order, of which there are no more than
`size`. -/
structure Kept (size : ℕ) (c : Cache κ ν) : Prop where
  length_le : c.order.length ≤ size
  nodup : c.order.Nodup
  mem_iff : ∀ k, k ∈ c.order ↔ (c.byKey k).isSome

omit [DecidableEq κ] in
theorem kept_empty (size : ℕ) : Kept size ({} : Cache κ ν) where
  length_le := Nat.zero_le size
  nodup := List.nodup_nil
  mem_iff _ := iff_of_false List.not_mem_nil Bool.false_ne_true

section

variable {size : ℕ} {c : Cache κ ν} {k k' : κ} {v w : ν}

theorem store_of_lt (h : c.order.length < size) : c.store size k v =
    { order := c.order ++ [k], byKey := Function.update c.byKey k (some v) } := by
  refine if_neg ?_
  rw [List.length_append, List.length_singleton]
  omega

theorem store_of_full {oldest : κ} {rest : List κ} (horder : c.order = oldest :: rest)
    (h : size ≤ c.order.length) : c.store size k v =
      { order := rest ++ [k]
        byKey := Function.update (Function.update c.byKey k (some v)) oldest none } := by
  have hfull : size < (c.order ++ [k]).length := by
    rw [List.length_append, List.length_singleton]
    omega
  refine (if_pos hfull).trans ?_
  rw [horder]
  rfl

/-- The keys after a store: the last of them. -/
theorem order_store (hc : c.order.length ≤ size) (hsize : 0 < size) :
    (c.store size k v).order = newest size (c.order ++ [k]) := by
  rcases Nat.lt_or_ge c.order.length size with hroom | hfull
  · rw [store_of_lt hroom, newest_of_length_le]
    rw [List.length_append, List.length_singleton]
    exact hroom
  · obtain ⟨oldest, rest, horder⟩ :=
      List.exists_cons_of_length_pos (Nat.lt_of_lt_of_le hsize hfull)
    have hone : (c.order ++ [k]).length - size = 1 := by
      rw [List.length_append, List.length_singleton]
      omega
    rw [store_of_full horder hfull, newest, hone, horder]
    rfl

/-- What is kept after a store was stored or was kept before. -/
theorem of_byKey_store (h : (c.store size k v).byKey k' = some w) :
    k' = k ∧ v = w ∨ c.byKey k' = some w := by
  have hupdate : Function.update c.byKey k (some v) k' = some w →
      k' = k ∧ v = w ∨ c.byKey k' = some w := by
    intro hw
    by_cases hk : k' = k
    · rw [hk, Function.update_self] at hw
      exact .inl ⟨hk, Option.some.inj hw⟩
    · rw [Function.update_of_ne hk] at hw
      exact .inr hw
  rw [Cache.store] at h
  split at h
  · split at h
    next oldest _ =>
      replace h : Function.update (Function.update c.byKey k (some v)) oldest none k' =
        some w := h
      by_cases hold : k' = oldest
      · rw [hold, Function.update_self] at h
        cases h
      · rw [Function.update_of_ne hold] at h
        exact hupdate h
    next => exact hupdate h
  · exact hupdate h

omit [DecidableEq κ] in
theorem nodup_concat {l : List κ} (hl : l.Nodup) (hk : k ∉ l) : (l ++ [k]).Nodup := by
  rw [List.nodup_append]
  refine ⟨hl, by simp, fun a ha b hb hab => hk ?_⟩
  rwa [← List.mem_singleton.mp hb, ← hab]

theorem Kept.store (hc : Kept size c) (hsize : 0 < size) (hk : k ∉ c.order) :
    Kept size (c.store size k v) := by
  have hlength : (c.store size k v).order.length ≤ size := by
    rw [order_store hc.length_le hsize, newest, List.length_drop]
    omega
  rcases Nat.lt_or_ge c.order.length size with hroom | hfull
  · rw [store_of_lt hroom] at hlength ⊢
    refine ⟨hlength, nodup_concat hc.nodup hk, fun k' => ?_⟩
    · show k' ∈ c.order ++ [k] ↔ (Function.update c.byKey k (some v) k').isSome
      by_cases hk' : k' = k
      · rw [hk', Function.update_self]
        exact iff_of_true (by simp) rfl
      · rw [Function.update_of_ne hk', ← hc.mem_iff]
        simp [hk']
  · obtain ⟨oldest, rest, horder⟩ :=
      List.exists_cons_of_length_pos (Nat.lt_of_lt_of_le hsize hfull)
    have hnodup := hc.nodup
    rw [horder] at hnodup hk
    obtain ⟨hold, hrest⟩ := List.nodup_cons.mp hnodup
    obtain ⟨hne, hkrest⟩ : k ≠ oldest ∧ k ∉ rest := by simpa using hk
    rw [store_of_full horder hfull] at hlength ⊢
    refine ⟨hlength, nodup_concat hrest hkrest, fun k' => ?_⟩
    · show k' ∈ rest ++ [k] ↔
        (Function.update (Function.update c.byKey k (some v)) oldest none k').isSome
      by_cases hk' : k' = oldest
      · rw [hk', Function.update_self]
        refine iff_of_false (fun hmem => ?_) Bool.false_ne_true
        rcases List.mem_append.mp hmem with hmem | hmem
        · exact hold hmem
        · exact hne (List.mem_singleton.mp hmem).symm
      · rw [Function.update_of_ne hk']
        by_cases hkk : k' = k
        · rw [hkk, Function.update_self]
          exact iff_of_true (by simp) rfl
        · rw [Function.update_of_ne hkk, ← hc.mem_iff, horder]
          simp [hk', hkk]

end

/-! ### Runs -/

section

variable {size : ℕ} {key : ι → κ} {fresh : ι → Except ε ν} {c : Cache κ ν}

theorem kept_ask (hc : Kept size c) (hsize : 0 < size) (q : ι) :
    Kept size (ask size key fresh c q).2 ∧ (ask size key fresh c q).2.order =
      newest size (c.order ++ match c.byKey (key q), fresh q with
        | none, .ok _ => [key q]
        | _, _ => []) := by
  have hsame : newest size (c.order ++ []) = c.order := by
    rw [List.append_nil, newest_of_length_le hc.length_le]
  rw [ask]
  cases hkey : c.byKey (key q) with
  | some hit => exact ⟨hc, hsame.symm⟩
  | none =>
      cases fresh q with
      | error e => exact ⟨hc, hsame.symm⟩
      | ok v =>
          have hnew : key q ∉ c.order := by
            rw [hc.mem_iff, hkey]
            exact Bool.false_ne_true
          exact ⟨hc.store hsize hnew, order_store hc.length_le hsize⟩

/-- **The keys kept** after a run are the last ones stored. -/
theorem order_run (hsize : 0 < size) (hc : Kept size c) (qs : List ι) :
    Kept size (run size key fresh c qs).2 ∧ (run size key fresh c qs).2.order =
      newest size (c.order ++ stored size key fresh c qs) := by
  induction qs generalizing c with
  | nil =>
      refine ⟨hc, ?_⟩
      rw [stored, List.append_nil, newest_of_length_le hc.length_le]
      rfl
  | cons q qs ih =>
      obtain ⟨hkept, horder⟩ := kept_ask hc hsize q
      obtain ⟨hrun, hlast⟩ := ih hkept
      refine ⟨hrun, ?_⟩
      show (run size key fresh (ask size key fresh c q).2 qs).2.order = _
      rw [hlast, horder, newest_append, stored, List.append_assoc]

/-- What is kept under a key was answered to a question of the set. -/
def From (S : Set ι) (key : ι → κ) (fresh : ι → Except ε ν) (c : Cache κ ν) : Prop :=
  ∀ k v, c.byKey k = some v → ∃ q ∈ S, key q = k ∧ fresh q = .ok v

/-- Any two questions of a set that have one key are answered alike. -/
def Alike (S : Set ι) (key : ι → κ) (fresh : ι → Except ε ν) : Prop :=
  ∀ q ∈ S, ∀ q' ∈ S, key q = key q' → ∀ v, fresh q = .ok v → fresh q' = .ok v

variable {S : Set ι}

theorem ask_from (hS : Alike S key fresh) (hc : From S key fresh c) {q : ι} (hq : q ∈ S) :
    (ask size key fresh c q).1 = fresh q ∧ From S key fresh (ask size key fresh c q).2 := by
  rw [ask]
  cases hkey : c.byKey (key q) with
  | some hit =>
      obtain ⟨q', hq', hkeys, hfresh⟩ := hc _ _ hkey
      exact ⟨(hS q' hq' q hq hkeys hit hfresh).symm, hc⟩
  | none =>
      cases hfresh : fresh q with
      | error e => exact ⟨rfl, hc⟩
      | ok v =>
          refine ⟨rfl, fun k w hw => ?_⟩
          rcases of_byKey_store hw with ⟨rfl, rfl⟩ | hw
          · exact ⟨q, hq, rfl, hfresh⟩
          · exact hc k w hw

theorem run_from (hS : Alike S key fresh) (hc : From S key fresh c) {qs : List ι}
    (hqs : ∀ q ∈ qs, q ∈ S) : (run size key fresh c qs).1 = qs.map fresh := by
  induction qs generalizing c with
  | nil => rfl
  | cons q qs ih =>
      obtain ⟨hanswer, hfrom⟩ : (ask size key fresh c q).1 = fresh q ∧
          From S key fresh (ask size key fresh c q).2 :=
        ask_from hS hc (hqs q List.mem_cons_self)
      show (ask size key fresh c q).1 :: (run size key fresh (ask size key fresh c q).2 qs).1 = _
      rw [hanswer, ih hfrom fun q' hq' => hqs q' (List.mem_cons_of_mem _ hq')]
      rfl

/-- A question asked under the key of the one before it is answered as that was. -/
theorem run_pair (hsize : 0 < size) {q q' : ι} {v : ν} (hkey : key q = key q')
    (hfresh : fresh q = .ok v) : (run size key fresh {} [q, q']).1 = [.ok v, .ok v] := by
  have hstore : ask size key fresh {} q =
      (.ok v, ({} : Cache κ ν).store size (key q) v) := by
    simp only [ask, hfresh]
  have hkept : (({} : Cache κ ν).store size (key q) v).byKey (key q') = some v := by
    rw [store_of_lt hsize, hkey]
    exact Function.update_self _ _ _
  show [(ask size key fresh {} q).1, (ask size key fresh (ask size key fresh {} q).2 q').1] = _
  rw [hstore, ask, hkept]

/-- **A cache is invisible** in the runs over a set of questions exactly if any two
of them under one key are answered alike. -/
theorem answers_iff (hsize : 0 < size) :
    (∀ qs : List ι, (∀ q ∈ qs, q ∈ S) → (run size key fresh {} qs).1 = qs.map fresh) ↔
      Alike S key fresh := by
  constructor
  · intro h q hq q' hq' hkey v hfresh
    have hrun := h [q, q'] (by simp [hq, hq'])
    rw [run_pair hsize hkey hfresh] at hrun
    exact (List.cons.inj (List.cons.inj hrun).2).1.symm
  · exact fun hS qs hqs => run_from hS (fun _ v h => absurd h.symm (Option.some_ne_none v)) hqs

end

end Fifo
