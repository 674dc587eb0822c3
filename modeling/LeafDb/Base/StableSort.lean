import Mathlib

/-!
# Stable sorting

`List.mergeSort` under a comparison that is a total preorder on the members of the list, and what it keeps
of an order the list already has: sorting by one key after another, the last key first, sorts by all of
them.
-/

namespace LeafDb

namespace StableSort

variable {α : Type*} {le : α → α → Bool} {l : List α}

/-- `le` is a total preorder on the members of `l`. -/
structure PreorderOn (le : α → α → Bool) (l : List α) : Prop where
  trans : ∀ a ∈ l, ∀ b ∈ l, ∀ c ∈ l, le a b → le b c → le a c
  total : ∀ a ∈ l, ∀ b ∈ l, le a b ∨ le b a

namespace PreorderOn

theorem perm {l' : List α} (h : PreorderOn le l) (hp : l'.Perm l) : PreorderOn le l' where
  trans a ha b hb c hc := h.trans a (hp.mem_iff.1 ha) b (hp.mem_iff.1 hb) c (hp.mem_iff.1 hc)
  total a ha b hb := h.total a (hp.mem_iff.1 ha) b (hp.mem_iff.1 hb)

/-- The comparison on the members only. -/
abbrev onMembers (le : α → α → Bool) (l : List α) (a b : {a // a ∈ l}) : Bool := le a b

theorem trans' (h : PreorderOn le l) (a b c : {a // a ∈ l}) : onMembers le l a b → onMembers le l b c → onMembers le l a c :=
  h.trans a a.2 b b.2 c c.2

theorem total' (h : PreorderOn le l) (a b : {a // a ∈ l}) : onMembers le l a b || onMembers le l b a := by
  simpa using h.total a a.2 b b.2

theorem sort_attach (le : α → α → Bool) (l : List α) : (l.attach.mergeSort (onMembers le l)).map Subtype.val = l.mergeSort le := by
  rw [List.map_mergeSort (s := le) (f := Subtype.val) fun _ _ _ _ => rfl, List.attach_map_subtype_val]

theorem pairwise_sort (h : PreorderOn le l) : (l.mergeSort le).Pairwise fun a b => le a b := by
  have hs := List.pairwise_mergeSort h.trans' h.total' l.attach
  rw [← sort_attach le l]
  exact List.pairwise_map.2 hs

/-- A sublist that is in order already stays in its order. -/
theorem sublist_sort (h : PreorderOn le l) {c : List α} (hc : c.Pairwise fun a b => le a b) (hl : c.Sublist l) :
    c.Sublist (l.mergeSort le) := by
  rw [← l.attach_map_subtype_val] at hl
  obtain ⟨c', hl', rfl⟩ := List.sublist_map_iff.1 hl
  rw [← sort_attach le l]
  exact (List.sublist_mergeSort h.trans' h.total' (List.pairwise_map.1 hc) hl').map _

/-- The members that a test with pairwise equivalent members picks keep their order. -/
theorem filter_sort (h : PreorderOn le l) {p : α → Bool} (hp : ∀ a ∈ l, ∀ b ∈ l, p a → p b → le a b) :
    (l.mergeSort le).filter p = l.filter p := by
  have hc : (l.filter p).Pairwise fun a b => le a b :=
    List.pairwise_of_forall_mem_list fun a ha b hb =>
      hp a (List.mem_of_mem_filter ha) b (List.mem_of_mem_filter hb) (List.of_mem_filter ha) (List.of_mem_filter hb)
  have hsub : (l.filter p).Sublist ((l.mergeSort le).filter p) := by
    have := (h.sublist_sort hc List.filter_sublist).filter p
    simpa [List.filter_filter] using this
  exact (hsub.eq_of_length ((List.mergeSort_perm l le).filter p).length_eq.symm).symm

/-- Sorting a list that is ordered by `R` orders it by `le` first and by `R` among equivalent members. -/
theorem pairwise_sort_of (h : PreorderOn le l) {R : α → α → Prop} (hR : l.Pairwise R) :
    (l.mergeSort le).Pairwise fun a b => le a b ∧ (le b a → R a b) := by
  rw [List.pairwise_iff_forall_sublist]
  intro a b hab
  have hle := List.pairwise_iff_forall_sublist.1 h.pairwise_sort hab
  refine ⟨hle, fun hba => ?_⟩
  have ha : a ∈ l := List.mem_mergeSort.1 (hab.subset (by simp))
  have hb : b ∈ l := List.mem_mergeSort.1 (hab.subset (by simp))
  -- `a` and `b` are in the class of `a`, whose members have not moved
  have haa : le a a := h.trans a ha b hb a ha hle hba
  let p (c : α) : Bool := le a c && le c a
  have hmem : [a, b].filter p = [a, b] := by simp [p, hle, hba, haa]
  have hfilter := h.filter_sort (p := p) fun c hc d hd hpc hpd => by
    simp only [p, Bool.and_eq_true] at hpc hpd
    exact h.trans c hc a ha d hd hpc.2 hpd.1
  have hsub : [a, b].Sublist (l.filter p) := by
    rw [← hfilter, ← hmem]
    exact hab.filter p
  exact List.pairwise_iff_forall_sublist.1 hR (hsub.trans List.filter_sublist)

end PreorderOn

end StableSort

end LeafDb
