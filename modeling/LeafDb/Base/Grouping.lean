import Mathlib

/-!
# Grouping a list by a key

The distinct keys of a list in the order of their first appearance, and the members of each key in the
order of the list.
-/

namespace LeafDb

namespace Grouping

/-! ### First appearances -/

section FirstAppearances

variable {κ : Type*} [DecidableEq κ]

theorem eraseDups_concat (l : List κ) (k : κ) : (l ++ [k]).eraseDups = if k ∈ l then l.eraseDups else l.eraseDups ++ [k] := by
  rw [List.eraseDups_append]
  by_cases h : k ∈ l
  · simp [List.removeAll, h]
  · simp [List.removeAll, h, List.eraseDups_cons]

theorem nodup_eraseDups (l : List κ) : l.eraseDups.Nodup := by
  induction l using List.reverseRecOn with
  | nil => simp
  | append_singleton l k ih =>
    rw [eraseDups_concat]
    split
    · exact ih
    · rename_i h
      exact List.nodup_append.2 ⟨ih, by simp, fun a ha b hb => by
        rintro rfl
        exact h (List.mem_singleton.1 hb ▸ List.mem_eraseDups.1 ha)⟩

end FirstAppearances

/-! ### Groups -/

section Groups

variable {α κ : Type*} [DecidableEq κ] (key : α → κ)

def keys (l : List α) : List κ := (l.map key).eraseDups

def members (l : List α) (k : κ) : List α := l.filter fun a => key a = k

theorem nodup_keys (l : List α) : (keys key l).Nodup := nodup_eraseDups _

@[simp] theorem mem_keys {l : List α} {k : κ} : k ∈ keys key l ↔ ∃ a ∈ l, key a = k := by
  simp [keys]

theorem keys_concat (l : List α) (a : α) :
    keys key (l ++ [a]) = if ∃ b ∈ l, key b = key a then keys key l else keys key l ++ [key a] := by
  simp only [keys, List.map_append, List.map_cons, List.map_nil, eraseDups_concat, List.mem_map]

theorem members_concat (l : List α) (a : α) (k : κ) :
    members key (l ++ [a]) k = if key a = k then members key l k ++ [a] else members key l k := by
  rw [members, List.filter_append]
  by_cases h : key a = k <;> simp [members, h]

/-- The groups partition the list. -/
theorem flatMap_members_perm (l : List α) : ((keys key l).flatMap (members key l)).Perm l := by
  classical
  rw [List.perm_iff_count]
  intro a
  rw [List.count_flatMap]
  by_cases ha : a ∈ l
  · have hk : key a ∈ keys key l := (mem_keys key).2 ⟨a, ha, rfl⟩
    rw [← List.sum_toFinset _ (nodup_keys key l), Finset.sum_eq_single_of_mem (key a) (List.mem_toFinset.2 hk)]
    · exact List.count_filter (decide_eq_true rfl)
    · intro k _ hne
      exact List.count_eq_zero_of_not_mem fun h => hne (of_decide_eq_true (List.mem_filter.1 h).2).symm
  · rw [List.count_eq_zero_of_not_mem ha]
    refine List.sum_eq_zero fun n hn => ?_
    obtain ⟨k, -, rfl⟩ := List.mem_map.1 hn
    exact List.count_eq_zero_of_not_mem fun h => ha (List.mem_of_mem_filter h)

end Groups

end Grouping

end LeafDb
