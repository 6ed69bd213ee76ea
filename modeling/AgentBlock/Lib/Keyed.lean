/-
AgentBlock/Lib/Keyed.lean

A table filled from a list, one entry a key: a later element takes the place of
an earlier one of its key.

Main results:

* `entries_keyed_perm` — elements of different keys are all there;
* `length_keyed_eq_iff` — and only those are.
-/
import Mathlib.Data.List.AList
import Mathlib.Data.List.Dedup
import Mathlib.Data.List.Induction

namespace Keyed

variable {α β κ : Type*} [DecidableEq κ] {key : α → κ} {value : α → β} {xs : List α}

section Defs

variable (key value)

def keyed (xs : List α) : AList fun _ : κ => β :=
  xs.foldl (fun t x => t.insert (key x) (value x)) ∅

end Defs

theorem keyed_concat (x : α) :
    keyed key value (xs ++ [x]) = (keyed key value xs).insert (key x) (value x) := by
  rw [keyed, List.foldl_append]
  rfl

theorem mem_keyed {k : κ} : k ∈ keyed key value xs ↔ k ∈ xs.map key := by
  induction xs using List.reverseRecOn with
  | nil => exact iff_of_false (AList.notMem_empty k) List.not_mem_nil
  | append_singleton xs x ih =>
      rw [keyed_concat, AList.mem_insert, ih, List.map_append, List.mem_append, or_comm]
      simp

/-- An entry is an element's own. -/
theorem exists_of_mem_entries {r : Sigma fun _ : κ => β} (h : r ∈ (keyed key value xs).entries) :
    ∃ x ∈ xs, r = ⟨key x, value x⟩ := by
  induction xs using List.reverseRecOn with
  | nil => cases h
  | append_singleton xs x ih =>
      rw [keyed_concat, AList.entries_insert] at h
      rcases List.mem_cons.mp h with rfl | h
      · exact ⟨x, by simp, rfl⟩
      · have hsub : r ∈ (keyed key value xs).entries := (List.kerase_sublist _ _).subset h
        obtain ⟨y, hy, hr⟩ := ih hsub
        exact ⟨y, List.mem_append_left _ hy, hr⟩

/-- **Elements of different keys** are all there. -/
theorem entries_keyed_perm (value : α → β) (h : (xs.map key).Nodup) :
    (keyed key value xs).entries.Perm (xs.map fun x => ⟨key x, value x⟩) := by
  induction xs using List.reverseRecOn with
  | nil => exact List.Perm.refl _
  | append_singleton xs x ih =>
      rw [List.map_append] at h
      obtain ⟨hxs, -, hdisjoint⟩ := List.nodup_append.mp h
      have hnew : key x ∉ keyed key value xs := by
        rw [mem_keyed]
        intro hmem
        exact hdisjoint _ hmem _ (List.mem_singleton_self _) rfl
      rw [keyed_concat, AList.entries_insert_of_notMem hnew, List.map_append]
      exact ((ih hxs).cons _).trans (List.perm_append_singleton _ _).symm

theorem keys_subperm : (keyed key value xs).keys.Subperm (xs.map key) := by
  apply List.subperm_of_subset (keyed key value xs).keys_nodup
  intro k hk
  exact mem_keyed.mp (AList.mem_keys.mpr hk)

/-- There are as many entries as elements just when no two have one key. -/
theorem length_keyed_eq_iff (value : α → β) :
    xs.length ≤ (keyed key value xs).entries.length ↔ (xs.map key).Nodup := by
  have hkeys : (keyed key value xs).keys.length = (keyed key value xs).entries.length :=
    List.length_map _
  constructor
  · intro hle
    rw [← hkeys, ← List.length_map key] at hle
    exact (keys_subperm.perm_of_length_le hle).nodup (keyed key value xs).keys_nodup
  · intro h
    rw [(entries_keyed_perm value h).length_eq, List.length_map]

end Keyed
