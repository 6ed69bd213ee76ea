/-
AgentBlock/Lib/Bisect.lean

A bisection for the largest candidate that fits.

A candidate is looked at (`probe`), which may fail outright, and then fits or
does not.  Nothing is assumed of which candidates fit: a found one does, and
where none was found the smallest did not.  Where what fits is closed downwards,
no larger candidate fits than the one found.
-/
import Mathlib.Tactic.Cases

section Bisect

variable {ε β : Type} (probe : Nat → Except ε β) (fits : β → Bool)

/-- The candidates from `lo` up to `hi`, which is not one of them. -/
def bisect (lo hi : Nat) (best : Option β) : Except ε (Option β) :=
  if lo < hi then
    let mid := (lo + hi - 1) / 2
    match probe mid with
    | .error e => .error e
    | .ok b => if fits b then bisect (mid + 1) hi (some b) else bisect lo mid best
  else .ok best
termination_by hi - lo

variable {probe fits} {lo hi : Nat} {best : Option β}

/-- What is found was looked at and fits. -/
theorem bisect_some {b : β} (h : bisect probe fits lo hi best = .ok (some b)) :
    best = some b ∨ ∃ k, lo ≤ k ∧ k < hi ∧ probe k = .ok b ∧ fits b = true := by
  fun_induction bisect probe fits lo hi best with
  | case1 lo hi best hlt mid e he => cases h
  | case2 lo hi best hlt mid c hc hfits ih =>
      have hmid : mid = (lo + hi - 1) / 2 := rfl
      right
      rcases ih h with hb | ⟨k, hk, hkhi, hprobe, hb⟩
      · cases hb
        exact ⟨mid, by omega, by omega, hc, hfits⟩
      · exact ⟨k, by omega, hkhi, hprobe, hb⟩
  | case3 lo hi best hlt mid c hc hfits ih =>
      have hmid : mid = (lo + hi - 1) / 2 := rfl
      rcases ih h with hb | ⟨k, hk, hkhi, hprobe, hb⟩
      · exact .inl hb
      · exact .inr ⟨k, hk, by omega, hprobe, hb⟩
  | case4 lo hi best hlt =>
      cases h
      exact .inl rfl

/-- Where nothing is found, the smallest candidate was looked at and does not
fit. -/
theorem bisect_none (h : bisect probe fits lo hi best = .ok none) :
    best = none ∧ (lo < hi → ∃ b, probe lo = .ok b ∧ fits b = false) := by
  fun_induction bisect probe fits lo hi best with
  | case1 lo hi best hlt mid e he => cases h
  | case2 lo hi best hlt mid c hc hfits ih => cases (ih h).1
  | case3 lo hi best hlt mid c hc hfits ih =>
      have hmid : mid = (lo + hi - 1) / 2 := rfl
      obtain ⟨hbest, hlo⟩ := ih h
      refine ⟨hbest, fun _ => ?_⟩
      rcases Nat.lt_or_ge lo mid with hlt | hge
      · exact hlo hlt
      · have hmidlo : mid = lo := by omega
        exact ⟨c, hmidlo ▸ hc, Bool.eq_false_iff.mpr hfits⟩
  | case4 lo hi best hlt =>
      cases h
      exact ⟨rfl, fun hlt' => absurd hlt' hlt⟩

/-- Where what fits is closed downwards, nothing larger fits than what is
found. -/
theorem bisect_largest {b : β}
    (hmono : ∀ j k c d, lo ≤ j → j ≤ k → k < hi → probe j = .ok c → probe k = .ok d →
      fits d = true → fits c = true)
    (h : bisect probe fits lo hi best = .ok (some b)) :
    (best = some b ∧ ∀ k d, lo ≤ k → k < hi → probe k = .ok d → fits d = false) ∨
      ∃ k, lo ≤ k ∧ k < hi ∧ probe k = .ok b ∧ fits b = true ∧
        ∀ k' d, k < k' → k' < hi → probe k' = .ok d → fits d = false := by
  fun_induction bisect probe fits lo hi best with
  | case1 lo hi best hlt mid e he => cases h
  | case2 lo hi best hlt mid c hc hfits ih =>
      have hmid : mid = (lo + hi - 1) / 2 := rfl
      right
      have hmono' := fun j k c d (hj : mid + 1 ≤ j) => hmono j k c d (show lo ≤ j by omega)
      rcases ih hmono' h with ⟨hb, hnone⟩ | ⟨k, hk, hkhi, hprobe, hb, hmax⟩
      · cases hb
        exact ⟨mid, by omega, by omega, hc, hfits, fun k' d hk' => hnone k' d (by omega)⟩
      · exact ⟨k, by omega, hkhi, hprobe, hb, hmax⟩
  | case3 lo hi best hlt mid c hc hfits ih =>
      have hmid : mid = (lo + hi - 1) / 2 := rfl
      -- nothing at `mid` or above it fits
      have habove : ∀ k d, mid ≤ k → k < hi → probe k = .ok d → fits d = false := by
        intro k d hk hkhi hd
        refine Bool.eq_false_iff.mpr fun hk' => hfits ?_
        exact hmono mid k c d (by omega) hk hkhi hc hd hk'
      have hmono' := fun j k c d hj hjk (hk : k < mid) =>
        hmono j k c d hj hjk (show k < hi by omega)
      rcases ih hmono' h with ⟨hb, hnone⟩ | ⟨k, hk, hkhi, hprobe, hb, hmax⟩
      · refine .inl ⟨hb, fun k d hk hkhi hd => ?_⟩
        rcases Nat.lt_or_ge k mid with hlt | hge
        · exact hnone k d hk hlt hd
        · exact habove k d hge hkhi hd
      · refine .inr ⟨k, hk, by omega, hprobe, hb, fun k' d hk' hkhi' hd => ?_⟩
        rcases Nat.lt_or_ge k' mid with hlt | hge
        · exact hmax k' d hk' hlt hd
        · exact habove k' d hge hkhi' hd
  | case4 lo hi best hlt =>
      cases h
      exact .inl ⟨rfl, fun k d hk hkhi => absurd (by omega) hlt⟩

/-- Nothing fails where no candidate does. -/
theorem bisect_ok (h : ∀ k, lo ≤ k → k < hi → ∃ b, probe k = .ok b) :
    ∃ r, bisect probe fits lo hi best = .ok r := by
  fun_induction bisect probe fits lo hi best with
  | case1 lo hi best hlt mid e he =>
      have hmid : mid = (lo + hi - 1) / 2 := rfl
      obtain ⟨b, hb⟩ := h mid (by omega) (by omega)
      rw [hb] at he
      cases he
  | case2 lo hi best hlt mid c hc hfits ih =>
      have hmid : mid = (lo + hi - 1) / 2 := rfl
      exact ih fun k hk hkhi => h k (by omega) hkhi
  | case3 lo hi best hlt mid c hc hfits ih =>
      have hmid : mid = (lo + hi - 1) / 2 := rfl
      exact ih fun k hk hkhi => h k hk (by omega)
  | case4 lo hi best hlt => exact ⟨best, rfl⟩

end Bisect
