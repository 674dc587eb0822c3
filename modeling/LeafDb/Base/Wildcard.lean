import Mathlib

/-!
# Wildcard patterns

A pattern is a list of items: any sequence, any one character, or a character that stands for the
characters it is related to. Two patterns one after the other match a text that splits into two parts
(`matches_append`); a text that has no more characters than the pattern needs is matched character by
character (`Matches.aligned`).
-/

namespace LeafDb

namespace Wildcard

inductive Item (α : Type*)
  | many
  | one
  | char (a : α)
deriving DecidableEq

variable {α : Type*}

/-- What one character of the text must be; `many` asks for none. -/
def Item.Fits (same : α → α → Prop) : Item α → α → Prop
  | many, _ => False
  | one, _ => True
  | char a, b => same a b

/-- The recursive definition. -/
inductive Matches (same : α → α → Prop) : List (Item α) → List α → Prop
  | nil : Matches same [] []
  | many (skipped : List α) {p : List (Item α)} {s : List α} (h : Matches same p s) :
      Matches same (.many :: p) (skipped ++ s)
  | fits {i : Item α} {a : α} {p : List (Item α)} {s : List α} (hi : i.Fits same a) (h : Matches same p s) :
      Matches same (i :: p) (a :: s)

/-- The items that take a character of their own. -/
def needs [DecidableEq α] (p : List (Item α)) : List (Item α) := p.filter (· ≠ .many)

section Matches

variable {same same' : α → α → Prop} {p q : List (Item α)} {s t : List α}

@[simp] theorem matches_nil : Matches same [] s ↔ s = [] := by
  constructor
  · rintro ⟨⟩
    rfl
  · rintro rfl
    exact .nil

theorem matches_cons {i : Item α} (hi : i ≠ .many) :
    Matches same (i :: p) s ↔ ∃ a s', s = a :: s' ∧ i.Fits same a ∧ Matches same p s' := by
  constructor
  · rintro (_ | _ | ⟨hf, h⟩)
    · exact (hi rfl).elim
    · exact ⟨_, _, rfl, hf, h⟩
  · rintro ⟨a, s', rfl, hf, h⟩
    exact .fits hf h

theorem matches_many : Matches same (.many :: p) s ↔ ∃ skipped s', s = skipped ++ s' ∧ Matches same p s' := by
  constructor
  · rintro (_ | ⟨skipped, h⟩ | ⟨hf, _⟩)
    · exact ⟨skipped, _, rfl, h⟩
    · exact hf.elim
  · rintro ⟨skipped, s', rfl, h⟩
    exact .many skipped h

theorem Matches.append (hp : Matches same p s) (hq : Matches same q t) : Matches same (p ++ q) (s ++ t) := by
  induction hp with
  | nil => exact hq
  | many skipped _ ih => exact List.append_assoc .. ▸ .many skipped ih
  | fits hf _ ih => exact .fits hf ih

theorem matches_append : Matches same (p ++ q) s ↔ ∃ s₁ s₂, s = s₁ ++ s₂ ∧ Matches same p s₁ ∧ Matches same q s₂ := by
  constructor
  · intro h
    induction p generalizing s with
    | nil => exact ⟨[], s, rfl, .nil, h⟩
    | cons i p ih =>
      rcases h with _ | ⟨skipped, h⟩ | ⟨hf, h⟩
      · obtain ⟨s₁, s₂, rfl, h₁, h₂⟩ := ih h
        exact ⟨skipped ++ s₁, s₂, (List.append_assoc ..).symm, .many skipped h₁, h₂⟩
      · obtain ⟨s₁, s₂, rfl, h₁, h₂⟩ := ih h
        exact ⟨_ :: s₁, s₂, rfl, .fits hf h₁, h₂⟩
  · rintro ⟨s₁, s₂, rfl, h₁, h₂⟩
    exact h₁.append h₂

/-- A relation that allows more on the characters at hand matches more. -/
theorem Matches.imp (h : Matches same p s) (himp : ∀ a, .char a ∈ p → ∀ b ∈ s, same a b → same' a b) : Matches same' p s := by
  induction h with
  | nil => exact .nil
  | many skipped _ ih =>
    exact .many skipped (ih fun a ha b hb => himp a (List.mem_cons_of_mem _ ha) b (List.mem_append_right _ hb))
  | @fits i a p s hf _ ih =>
    refine .fits ?_ (ih fun a ha b hb => himp a (List.mem_cons_of_mem _ ha) b (List.mem_cons_of_mem _ hb))
    cases i with
    | many => exact hf.elim
    | one => trivial
    | char c => exact himp c List.mem_cons_self a List.mem_cons_self hf

/-- Items without `many` match character by character. -/
theorem matches_iff_forall₂ (hp : .many ∉ p) : Matches same p s ↔ List.Forall₂ (Item.Fits same) p s := by
  induction p generalizing s with
  | nil => rw [matches_nil, List.forall₂_nil_left_iff]
  | cons i p ih =>
    rw [List.mem_cons, not_or] at hp
    rw [matches_cons (Ne.symm hp.1), List.forall₂_cons_left_iff]
    constructor
    · rintro ⟨a, s', rfl, hf, h⟩
      exact ⟨a, s', hf, (ih hp.2).1 h, rfl⟩
    · rintro ⟨a, s', hf, h, rfl⟩
      exact ⟨a, s', rfl, hf, (ih hp.2).2 h⟩

theorem matches_replicate_one {n : Nat} : Matches same (List.replicate n .one) s ↔ s.length = n := by
  rw [matches_iff_forall₂ fun h => by cases List.eq_of_mem_replicate h]
  induction n generalizing s with
  | zero => rw [List.replicate_zero, List.forall₂_nil_left_iff, List.length_eq_zero_iff]
  | succ n ih =>
    rw [List.replicate_succ, List.forall₂_cons_left_iff]
    constructor
    · rintro ⟨a, s', -, h, rfl⟩
      rw [List.length_cons, ih.1 h]
    · intro h
      rcases s with _ | ⟨a, s⟩
      · simp at h
      · exact ⟨a, s, trivial, ih.2 (by simpa using h), rfl⟩

variable [DecidableEq α]

theorem Matches.length_le (h : Matches same p s) : (needs p).length ≤ s.length := by
  induction h with
  | nil => exact le_rfl
  | many skipped _ ih =>
    rw [List.length_append]
    exact ih.trans (Nat.le_add_left ..)
  | fits hf _ ih =>
    rw [needs, List.filter_cons, List.length_cons]
    split
    · exact Nat.succ_le_succ ih
    · exact ih.trans (Nat.le_succ _)

/-- A text that is no longer than needed leaves nothing for `many`. -/
theorem Matches.aligned (h : Matches same p s) (hl : s.length ≤ (needs p).length) :
    List.Forall₂ (Item.Fits same) (needs p) s := by
  induction h with
  | nil => exact .nil
  | @many skipped p s hs ih =>
    have hneeds : needs (.many :: p) = needs p := by simp [needs]
    rw [hneeds] at hl ⊢
    have hle := hs.length_le
    rw [List.length_append] at hl
    obtain rfl : skipped = [] := List.length_eq_zero_iff.1 (by omega)
    exact ih (by simpa using hl)
  | @fits i a p s hf _ ih =>
    have hi : i ≠ .many := by
      rintro rfl
      exact hf
    have hneeds : needs (i :: p) = i :: needs p := by simp [needs, hi]
    rw [hneeds] at hl ⊢
    exact .cons hf (ih (Nat.le_of_succ_le_succ hl))

/-- A pattern matches a text its items fit one by one. -/
theorem matches_of_aligned (h : List.Forall₂ (Item.Fits same) (needs p) s) : Matches same p s := by
  induction p generalizing s with
  | nil => exact matches_nil.2 (List.forall₂_nil_left_iff.1 h)
  | cons i p ih =>
    by_cases hi : i = .many
    · subst hi
      exact .many [] (ih (by simpa [needs] using h))
    · have hneeds : needs (i :: p) = i :: needs p := by simp [needs, hi]
      rw [hneeds, List.forall₂_cons_left_iff] at h
      obtain ⟨a, s', hf, h, rfl⟩ := h
      exact .fits hf (ih h)

end Matches

end Wildcard

end LeafDb
