import Mathlib

/-!
# Binary search

`bisect p xs` is the loop that halves `[lo, hi)` according to `p`. When `p` holds on a prefix of `xs`
and fails on the rest, it returns the length of that prefix (`exists_bisect`); this is the only fact its
users need.
-/

namespace LeafDb

variable {α : Type*}

/-- The loop: `fuel` bounds the length of `[lo, hi)`. -/
def bisectLoop (p : α → Bool) (xs : List α) : Nat → Nat → Nat → Nat
  | 0, lo, _ => lo
  | fuel + 1, lo, hi =>
    if lo < hi then
      match xs[(lo + hi) / 2]? with
      | some x =>
        if p x then bisectLoop p xs fuel ((lo + hi) / 2 + 1) hi
        else bisectLoop p xs fuel lo ((lo + hi) / 2)
      | none => lo
    else lo

def bisect (p : α → Bool) (xs : List α) : Nat := bisectLoop p xs xs.length 0 xs.length

/-- `bisect.bisect_left(a, x)`; `std::lower_bound` on a sorted range. -/
def bisectLeft (a : List Int) (x : Int) : Nat := bisect (fun y => decide (y < x)) a

/-- `bisect.bisect_right(a, x)`; `std::upper_bound` on a sorted range. -/
def bisectRight (a : List Int) (x : Int) : Nat := bisect (fun y => decide (y ≤ x)) a

variable {p : α → Bool} {l r : List α}

theorem bisectLoop_append (hl : ∀ a ∈ l, p a = true) (hr : ∀ b ∈ r, p b = false) (fuel lo hi : Nat)
    (hlo : lo ≤ l.length) (hhi : l.length ≤ hi) (hlen : hi ≤ (l ++ r).length) (hf : hi - lo ≤ fuel) :
    bisectLoop p (l ++ r) fuel lo hi = l.length := by
  induction fuel generalizing lo hi with
  | zero => simp only [bisectLoop]; omega
  | succ fuel ih =>
    simp only [bisectLoop]
    by_cases hlt : lo < hi
    · have hmid : (lo + hi) / 2 < (l ++ r).length := by omega
      rw [if_pos hlt, List.getElem?_eq_getElem hmid]
      by_cases hm : (lo + hi) / 2 < l.length
      · have hp : p (l ++ r)[(lo + hi) / 2] = true := by
          rw [List.getElem_append_left hm]
          exact hl _ (List.getElem_mem _)
        simp only [hp, if_true]
        exact ih _ _ hm hhi hlen (by omega)
      · have hp : p (l ++ r)[(lo + hi) / 2] = false := by
          rw [List.getElem_append_right (by omega)]
          exact hr _ (List.getElem_mem _)
        simp only [hp, Bool.false_eq_true, if_false]
        exact ih _ _ hlo (by omega) (by omega) (by omega)
    · rw [if_neg hlt]
      omega

theorem bisectLoop_le {xs : List α} {fuel lo hi : Nat} (h : lo ≤ hi) : bisectLoop p xs fuel lo hi ≤ hi := by
  induction fuel generalizing lo hi with
  | zero => exact h
  | succ fuel ih =>
    simp only [bisectLoop]
    split
    · split
      · split
        · exact ih (by omega)
        · exact (ih (by omega)).trans (by omega)
      · exact h
    · exact h

/-- On a list that `p` splits, `bisect` finds the split. -/
theorem bisect_append (hl : ∀ a ∈ l, p a = true) (hr : ∀ b ∈ r, p b = false) :
    bisect p (l ++ r) = l.length :=
  bisectLoop_append hl hr _ _ _ (Nat.zero_le _) (by simp) le_rfl le_rfl

/-- A list on which `p` never comes back is split by `p`. -/
theorem exists_bisect {xs : List α} (h : xs.Pairwise fun a b => p b = true → p a = true) :
    ∃ l r, xs = l ++ r ∧ bisect p xs = l.length ∧ (∀ a ∈ l, p a = true) ∧ ∀ b ∈ r, p b = false := by
  obtain ⟨l, r, rfl, hl, hr⟩ : ∃ l r, xs = l ++ r ∧ (∀ a ∈ l, p a = true) ∧ ∀ b ∈ r, p b = false := by
    induction xs with
    | nil => exact ⟨[], [], rfl, by simp, by simp⟩
    | cons x xs ih =>
      rw [List.pairwise_cons] at h
      rcases hx : p x with _ | _
      · refine ⟨[], x :: xs, rfl, by simp, fun b hb => ?_⟩
        rcases List.mem_cons.1 hb with rfl | hb
        · exact hx
        · exact Bool.eq_false_iff.2 fun hp => by simpa [hx] using h.1 b hb hp
      · obtain ⟨l, r, rfl, hl, hr⟩ := ih h.2
        refine ⟨x :: l, r, rfl, fun a ha => ?_, hr⟩
        rcases List.mem_cons.1 ha with rfl | ha
        · exact hx
        · exact hl a ha
  exact ⟨l, r, rfl, bisect_append hl hr, hl, hr⟩

/-! ### On ascending keys -/

theorem bisectRight_le (ks : List Int) (x : Int) : bisectRight ks x ≤ ks.length := bisectLoop_le (Nat.zero_le _)

theorem bisectLeft_le (ks : List Int) (x : Int) : bisectLeft ks x ≤ ks.length := bisectLoop_le (Nat.zero_le _)

theorem bisectLeft_append {l r : List Int} {x : Int} (hl : ∀ a ∈ l, a < x) (hr : ∀ b ∈ r, x ≤ b) :
    bisectLeft (l ++ r) x = l.length :=
  bisect_append (by simpa using hl) (by simpa using hr)

theorem bisectRight_append {l r : List Int} {x : Int} (hl : ∀ a ∈ l, a ≤ x) (hr : ∀ b ∈ r, x < b) :
    bisectRight (l ++ r) x = l.length :=
  bisect_append (by simpa using hl) (by simpa using hr)

theorem exists_bisectLeft {ks : List Int} (h : ks.Pairwise (· < ·)) (x : Int) :
    ∃ l r, ks = l ++ r ∧ bisectLeft ks x = l.length ∧ (∀ a ∈ l, a < x) ∧ ∀ b ∈ r, x ≤ b := by
  obtain ⟨l, r, e, hi, hl, hr⟩ := exists_bisect (p := fun y => decide (y < x)) (h.imp fun hab hb => by
    simp only [decide_eq_true_eq] at hb ⊢
    omega)
  exact ⟨l, r, e, hi, by simpa using hl, by simpa using hr⟩

theorem exists_bisectRight_of_le {ks : List Int} (h : ks.Pairwise (· ≤ ·)) (x : Int) :
    ∃ l r, ks = l ++ r ∧ bisectRight ks x = l.length ∧ (∀ a ∈ l, a ≤ x) ∧ ∀ b ∈ r, x < b := by
  obtain ⟨l, r, e, hi, hl, hr⟩ := exists_bisect (p := fun y => decide (y ≤ x)) (h.imp fun hab hb => by
    simp only [decide_eq_true_eq] at hb ⊢
    omega)
  exact ⟨l, r, e, hi, by simpa using hl, by simpa using hr⟩

theorem exists_bisectRight {ks : List Int} (h : ks.Pairwise (· < ·)) (x : Int) :
    ∃ l r, ks = l ++ r ∧ bisectRight ks x = l.length ∧ (∀ a ∈ l, a ≤ x) ∧ ∀ b ∈ r, x < b :=
  exists_bisectRight_of_le (h.imp le_of_lt) x

end LeafDb
