import Mathlib

/-!
# Computations that may raise

Inversion of `do` blocks in `Except`: a sequence that succeeds, a `mapM` that succeeds, and the lists
such a `mapM` relates.
-/

namespace LeafDb

variable {ε : Type*} {α β : Type}

theorem bind_eq_ok {x : Except ε α} {f : α → Except ε β} {b : β} :
    x.bind f = .ok b ↔ ∃ a, x = .ok a ∧ f a = .ok b := by
  rcases x with e | a <;> simp [Except.bind]

theorem do_eq_ok {x : Except ε α} {f : α → Except ε β} {b : β} :
    (x >>= f) = .ok b ↔ ∃ a, x = .ok a ∧ f a = .ok b := bind_eq_ok

theorem exists_do {x : Except ε α} {f : α → Except ε β} (hx : ∃ a, x = .ok a) (hf : ∀ a, x = .ok a → ∃ b, f a = .ok b) :
    ∃ b, (x >>= f) = .ok b := by
  obtain ⟨a, rfl⟩ := hx
  exact hf a rfl

theorem map_eq_ok {x : Except ε α} {f : α → β} {b : β} : x.map f = .ok b ↔ ∃ a, x = .ok a ∧ f a = b := by
  rcases x with e | a <;> simp [Except.map]

/-! ### Lists related element by element -/

section Forall₂

variable {R : α → β → Prop} {as : List α} {bs : List β}

theorem forall₂_getElem? (h : List.Forall₂ R as bs) {j : Nat} {a : α} (ha : as[j]? = some a) :
    ∃ b, bs[j]? = some b ∧ R a b := by
  induction h generalizing j with
  | nil => simp at ha
  | @cons a' b' as' bs' hab _ ih =>
    rcases j with _ | j
    · obtain rfl : a' = a := by simpa using ha
      exact ⟨b', rfl, hab⟩
    · exact ih (by simpa using ha)

theorem forall₂_getElem?' (h : List.Forall₂ R as bs) {j : Nat} {b : β} (hb : bs[j]? = some b) :
    ∃ a, as[j]? = some a ∧ R a b :=
  forall₂_getElem? h.flip hb

end Forall₂

/-- The results of a `mapM` that succeeds. -/
theorem mapM_eq_ok {as : List α} {f : α → Except ε β} {bs : List β} :
    as.mapM f = .ok bs ↔ List.Forall₂ (fun a b => f a = .ok b) as bs := by
  induction as generalizing bs with
  | nil =>
    rw [List.mapM_nil, List.forall₂_nil_left_iff]
    constructor
    · intro h
      cases h
      rfl
    · rintro rfl
      rfl
  | cons a as ih =>
    rw [List.mapM_cons, do_eq_ok]
    constructor
    · rintro ⟨b, hb, h⟩
      obtain ⟨bs', hbs, h⟩ := do_eq_ok.1 h
      cases h
      exact .cons hb (ih.1 hbs)
    · rintro (_ | ⟨hb, hbs⟩)
      exact ⟨_, hb, do_eq_ok.2 ⟨_, ih.2 hbs, rfl⟩⟩

theorem exists_mapM {f : α → Except ε β} {l : List α} (h : ∀ a ∈ l, ∃ b, f a = .ok b) :
    ∃ bs, l.mapM f = .ok bs := by
  induction l with
  | nil => exact ⟨[], rfl⟩
  | cons a as ih =>
    obtain ⟨b, hb⟩ := h a (by simp)
    obtain ⟨bs, hbs⟩ := ih fun a' ha' => h a' (by simp [ha'])
    exact ⟨b :: bs, mapM_eq_ok.2 (.cons hb (mapM_eq_ok.1 hbs))⟩

end LeafDb
